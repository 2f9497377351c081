import RapidArm.Objects.Queue
import RapidArm.Lib.Trace

/-!
# The object manager

Callers of `enqueue_init` and `enqueue_flush`, the worker thread and the slots of
`io-mmu/src/cpu_fabric/object_manager.rs` (lines 227–425), as a machine whose events can
come in any order. What happens under the lock of the queue is one event; a caller that
finds the queue full tries again with a later event.

Slots are allocations: the address of a slot is free again when its last `Arc` and its
last `Weak` are gone, and not before.

Results:
* `queue_invariant`: in every run the queue stays below its limit, its index is exact,
  queued flushes have their page, entries leave in the order in which they came, and no
  assertion of the queue or of the worker fails.
-/

namespace RapidArm.Objects

open RapidArm.Lib

variable {κ : Type}

/-! ## State -/

/-- The memory at the address of an `ObjectSlot`. -/
inductive SlotMemory
  | free
  /-- Some `Arc` is left; `resident` is `page.get().is_some()`. -/
  | live (fabric : CpuFabricId) (resident : Bool)
  /-- The slot is gone, but not its last `Weak`. -/
  | dead
  deriving DecidableEq, Repr

/-- `page.get().is_some()`. -/
def SlotMemory.resident : SlotMemory → Bool
  | .live _ resident => resident
  | _ => false

/-- Some `Arc` is left. -/
def SlotMemory.isLive : SlotMemory → Bool
  | .live _ _ => true
  | _ => false

theorem SlotMemory.isLive_of_resident {m : SlotMemory} (h : m.resident = true) :
    m.isLive = true := by
  cases m with
  | live fabric resident => rfl
  | free => cases h
  | dead => cases h

theorem SlotMemory.isLive_iff {m : SlotMemory} :
    m.isLive = true ↔ ∃ fabric resident, m = .live fabric resident := by
  cases m with
  | live fabric resident => exact ⟨fun _ => ⟨fabric, resident, rfl⟩, fun _ => rfl⟩
  | free => exact ⟨nofun, nofun⟩
  | dead => exact ⟨nofun, nofun⟩

theorem SlotMemory.ne_free {m : SlotMemory} (h : m.isLive = true) : m ≠ .free := by
  rintro rfl
  cases h

theorem SlotMemory.ne_dead {m : SlotMemory} (h : m.isLive = true) : m ≠ .dead := by
  rintro rfl
  cases h

/-- The slot after its page was made. -/
def SlotMemory.withPage : SlotMemory → SlotMemory
  | .live fabric _ => .live fabric true
  | m => m

@[simp] theorem SlotMemory.isLive_withPage (m : SlotMemory) : m.withPage.isLive = m.isLive := by
  cases m <;> rfl

theorem SlotMemory.resident_withPage {m : SlotMemory} (h : m.isLive = true) :
    m.withPage.resident = true := by
  obtain ⟨fabric, resident, rfl⟩ := SlotMemory.isLive_iff.1 h
  rfl

/-- How a call of the memory object ends. -/
inductive Outcome
  | success
  | error
  | panicked
  deriving DecidableEq, Repr

/-- What becomes of a callback: `on_success` or `on_failure` is called, or it is dropped. -/
inductive CallbackEnd
  | succeeded
  | failed
  | dropped
  deriving DecidableEq, Repr

/-- Where the worker is in `run_worker` and `handle_task`. -/
inductive Worker (κ : Type)
  | idle
  /-- The entry is dequeued. -/
  | took (entry : QueueEntry κ)
  /-- The slot is upgraded and its object runs `fault_in_exclusive` or `fault_out`. -/
  | running (slot : ObjSlotId) (opType : OpType) (callbacks : List κ)
  /-- The slot is dropped and the callbacks are called one by one. -/
  | notifying (slot : ObjSlotId) (callbacks : List κ) (success : Bool)
  deriving DecidableEq, Repr

/-- The worker has an `Arc` of the slot. -/
def Worker.hasArc (id : ObjSlotId) : Worker κ → Bool
  | .running slot _ _ => slot == id
  | _ => false

/-- The worker has a `Weak` of the slot. -/
def Worker.hasWeak (id : ObjSlotId) : Worker κ → Bool
  | .idle => false
  | .took entry => entry.slot == id
  | .running slot _ _ => slot == id
  | .notifying slot _ _ => slot == id

/-- The identity of a thread that calls `Inner::enqueue`. -/
abbrev ThreadId := ℕ

/-- `Inner`, the threads in `Inner::enqueue`, the worker and the slots. -/
structure Manager (κ : Type) where
  queueLimit : ℕ
  queue : Queue κ
  closed : Bool
  callers : AList fun _ : ThreadId => EnqueueEntry κ
  worker : Worker κ
  slots : ObjSlotId → SlotMemory
  /-- The callbacks that are done, oldest first. -/
  ended : List (κ × CallbackEnd)
  /-- The slots for which an entry was made, in this order. -/
  arrived : List ObjSlotId
  /-- The slots whose entry was dequeued, in this order. -/
  departed : List ObjSlotId

/-- An action of a caller, of the worker or of an owner of a slot. -/
inductive Event (κ : Type)
  /-- `Arc::new(ObjectSlot { .. })`; its MMU belongs to the fabric. -/
  | newSlot (id : ObjSlotId) (fabric : CpuFabricId)
  /-- The last `Arc` is dropped. -/
  | dropSlot (id : ObjSlotId)
  /-- The last `Weak` is dropped. -/
  | deallocSlot (id : ObjSlotId)
  | enqueueInit (t : ThreadId) (id : ObjSlotId) (callback : Option κ)
  | enqueueFlush (t : ThreadId) (id : ObjSlotId) (callback : Option κ)
  /-- A caller has the lock and goes once through the loop of `Inner::enqueue`. -/
  | lock (t : ThreadId)
  /-- `Inner::dequeue`. -/
  | dequeue
  /-- `slot.upgrade()`, and what follows up to the call of the object. -/
  | upgrade
  /-- The call of the object returns. -/
  | finish (outcome : Outcome)
  /-- The next callback is called. -/
  | notify
  /-- `Inner::close`. -/
  | close
  deriving DecidableEq, Repr

namespace Manager

/-- `ObjectManager::new`. -/
def new (queueLimit : ℕ) : Manager κ where
  queueLimit := queueLimit
  queue := .new
  closed := false
  callers := ∅
  worker := .idle
  slots := fun _ => .free
  ended := []
  arrived := []
  departed := []

/-! ## Steps -/

/-- The callbacks end. -/
def endCallbacks (s : Manager κ) (callbacks : List κ) (how : CallbackEnd) : Manager κ :=
  { s with ended := s.ended ++ callbacks.map (·, how) }

/-- `Inner::enqueue` up to the lock: a flush of a page that is not there has succeeded. -/
def call (s : Manager κ) (t : ThreadId) (e : EnqueueEntry κ) : Manager κ :=
  if e.opType = .flush ∧ (s.slots e.slot).resident = false then
    s.endCallbacks e.callback.toList .succeeded
  else { s with callers := s.callers.insert t e }

/-- The slots of the queued entries. -/
def queuedSlots (s : Manager κ) : List ObjSlotId := s.queue.queue.map (·.slot)

/-- What `Inner::enqueue` does with the result of `Queue::enqueue`. -/
def afterEnqueue (s : Manager κ) (t : ThreadId) (e : EnqueueEntry κ) (q : Queue κ) :
    Enqueued → Manager κ
  | .queued =>
    { s with
      queue := q
      callers := s.callers.erase t
      arrived := if e.slot ∈ s.queuedSlots then s.arrived else s.arrived ++ [e.slot] }
  | .unnecessary =>
    -- the callback succeeds as it is dropped
    { s.endCallbacks e.callback.toList .succeeded with callers := s.callers.erase t }
  | .full => s

/-- Once through the loop of `Inner::enqueue`. -/
def attempt (s : Manager κ) (t : ThreadId) (e : EnqueueEntry κ) : Except Failure (Manager κ) := do
  require (s.closed = false) .workerThreadDied
  let (r, q) ← s.queue.enqueue e (s.slots e.slot).resident s.queueLimit
  return s.afterEnqueue t e q r

/-- `Inner::dequeue` by the idle worker. -/
def takeEntry (s : Manager κ) : Except Failure (Manager κ) := do
  if s.closed then
    return s
  match ← s.queue.dequeue with
  | (none, _) => return s
  | (some entry, q) =>
    return { s with queue := q, worker := .took entry, departed := s.departed ++ [entry.slot] }

/-- `handle_task` up to the call of the object. `get_or_try_init` does not call it for a
    page that is there. -/
def startTask (s : Manager κ) (entry : QueueEntry κ) : Except Failure (Manager κ) :=
  match s.slots entry.slot with
  | .live _ resident =>
    match entry.opType, resident with
    | .init _, true => .ok { s with worker := .notifying entry.slot entry.callbacks true }
    | .init _, false => .ok { s with worker := .running entry.slot entry.opType entry.callbacks }
    | .flush, true => .ok { s with worker := .running entry.slot entry.opType entry.callbacks }
    | .flush, false => .error .flushWithoutPage
  | _ => .ok { s.endCallbacks entry.callbacks .dropped with worker := .idle }

/-- The object returns; an error and a panic count as failures. -/
def finishTask (s : Manager κ) (id : ObjSlotId) (opType : OpType) (callbacks : List κ)
    (outcome : Outcome) : Manager κ :=
  { s with
    worker := .notifying id callbacks (outcome = .success)
    slots := if opType ≠ .flush ∧ outcome = .success then
        Function.update s.slots id (s.slots id).withPage
      else s.slots }

/-- A caller or the worker has an `Arc` of the slot. -/
def hasArc (s : Manager κ) (id : ObjSlotId) : Bool :=
  s.callers.entries.any (·.2.slot == id) || s.worker.hasArc id

/-- The queue or the worker has a `Weak` of the slot. -/
def hasWeak (s : Manager κ) (id : ObjSlotId) : Bool :=
  s.queue.queue.any (·.slot == id) || s.worker.hasWeak id

/-- One event. An event that cannot happen now changes nothing. -/
def step (s : Manager κ) : Event κ → Except Failure (Manager κ)
  | .newSlot id fabric =>
    if s.slots id = .free then
      .ok { s with slots := Function.update s.slots id (.live fabric false) }
    else .ok s
  | .dropSlot id =>
    match s.slots id with
    | .live _ _ =>
      if s.hasArc id then .ok s else .ok { s with slots := Function.update s.slots id .dead }
    | _ => .ok s
  | .deallocSlot id =>
    if s.slots id = .dead ∧ s.hasWeak id = false then
      .ok { s with slots := Function.update s.slots id .free }
    else .ok s
  | .enqueueInit t id callback =>
    match s.slots id, s.callers.lookup t with
    -- every slot belongs to one fabric
    | .live fabric _, none => .ok (s.call t ⟨id, .init fabric, callback⟩)
    | _, _ => .ok s
  | .enqueueFlush t id callback =>
    match s.slots id, s.callers.lookup t with
    | .live _ _, none => .ok (s.call t ⟨id, .flush, callback⟩)
    | _, _ => .ok s
  | .lock t =>
    match s.callers.lookup t with
    | some e => s.attempt t e
    | none => .ok s
  | .dequeue =>
    match s.worker with
    | .idle => s.takeEntry
    | _ => .ok s
  | .upgrade =>
    match s.worker with
    | .took entry => s.startTask entry
    | _ => .ok s
  | .finish outcome =>
    match s.worker with
    | .running id opType callbacks => .ok (s.finishTask id opType callbacks outcome)
    | _ => .ok s
  | .notify =>
    match s.worker with
    | .notifying _ [] _ => .ok { s with worker := .idle }
    | .notifying id (callback :: callbacks) success =>
      .ok { s.endCallbacks [callback] (if success then .succeeded else .failed) with
        worker := .notifying id callbacks success }
    | _ => .ok s
  | .close => .ok { s with closed := true }

/-- A run from the start. -/
def run (queueLimit : ℕ) (events : List (Event κ)) : Except Failure (Manager κ) :=
  events.foldlM step (new queueLimit)

/-! ## What an event does -/

/-- The events that do something, each with when it can happen and the state after it. -/
inductive Step (s : Manager κ) : Event κ → Manager κ → Prop
  | nothing (event : Event κ) : Step s event s
  | newSlot {id : ObjSlotId} {fabric : CpuFabricId} (hfree : s.slots id = .free) :
    Step s (.newSlot id fabric) { s with slots := Function.update s.slots id (.live fabric false) }
  | dropSlot {id : ObjSlotId} {fabric : CpuFabricId} {resident : Bool}
    (hlive : s.slots id = .live fabric resident) (harc : s.hasArc id = false) :
    Step s (.dropSlot id) { s with slots := Function.update s.slots id .dead }
  | deallocSlot {id : ObjSlotId} (hdead : s.slots id = .dead) (hweak : s.hasWeak id = false) :
    Step s (.deallocSlot id) { s with slots := Function.update s.slots id .free }
  | enqueueInit {t : ThreadId} {id : ObjSlotId} {callback : Option κ} {fabric : CpuFabricId}
    {resident : Bool} (hlive : s.slots id = .live fabric resident) (hnone : s.callers.lookup t =
      none) :
    Step s (.enqueueInit t id callback)
      { s with callers := s.callers.insert t ⟨id, .init fabric, callback⟩ }
  | enqueueFlush {t : ThreadId} {id : ObjSlotId} {callback : Option κ} {fabric : CpuFabricId}
    (hlive : s.slots id = .live fabric true) (hnone : s.callers.lookup t = none) :
    Step s (.enqueueFlush t id callback)
      { s with callers := s.callers.insert t ⟨id, .flush, callback⟩ }
  | skipFlush {t : ThreadId} {id : ObjSlotId} {callback : Option κ} {fabric : CpuFabricId}
    (hlive : s.slots id = .live fabric false) (hnone : s.callers.lookup t = none) :
    Step s (.enqueueFlush t id callback) (s.endCallbacks callback.toList .succeeded)
  | unnecessary {t : ThreadId} {e : EnqueueEntry κ} (hcaller : s.callers.lookup t = some e)
    (hinit : e.opType ≠ .flush) (hresident : (s.slots e.slot).resident = true) :
    Step s (.lock t)
      { s.endCallbacks e.callback.toList .succeeded with callers := s.callers.erase t }
  | joined {t : ThreadId} {e : EnqueueEntry κ} {i : ℕ} {entry : QueueEntry κ} {opType : OpType}
    {q : Queue κ} (hcaller : s.callers.lookup t = some e) (hentry : s.queue.queue[i]? = some entry)
    (hslot : entry.slot = e.slot)
    (hmerge : Queue.merge e.opType entry.opType (s.slots e.slot).resident = .ok opType)
    (hqueue : q.queue = s.queue.queue.modify i (·.join opType e.callback))
    (hbase : q.base = s.queue.base) (hindexed : q.WellIndexed) :
    Step s (.lock t) { s with queue := q, callers := s.callers.erase t }
  | pushed {t : ThreadId} {e : EnqueueEntry κ} {q : Queue κ} (hcaller : s.callers.lookup t = some e)
    (hroom : s.queue.queue.length < s.queueLimit)
    (hqueue : q.queue = s.queue.queue ++ [⟨e.slot, e.callback.toList, e.opType⟩])
    (hbase : q.base = s.queue.base) (hindexed : q.WellIndexed) :
    Step s (.lock t)
      { s with queue := q, callers := s.callers.erase t, arrived := s.arrived ++ [e.slot] }
  | dequeue {entry : QueueEntry κ} {q : Queue κ} (hidle : s.worker = .idle)
    (hqueue : s.queue.queue = entry :: q.queue) (hbase : q.base ≤ s.queue.base + 1)
    (hindexed : q.WellIndexed) :
    Step s .dequeue
      { s with queue := q, worker := .took entry, departed := s.departed ++ [entry.slot] }
  | gone {entry : QueueEntry κ} (htook : s.worker = .took entry)
    (hgone : ∀ fabric resident, s.slots entry.slot ≠ .live fabric resident) :
    Step s .upgrade { s.endCallbacks entry.callbacks .dropped with worker := .idle }
  | ready {entry : QueueEntry κ} (htook : s.worker = .took entry) (hinit : entry.opType ≠ .flush)
    (hresident : (s.slots entry.slot).resident = true) :
    Step s .upgrade { s with worker := .notifying entry.slot entry.callbacks true }
  | start {entry : QueueEntry κ} (htook : s.worker = .took entry)
    (hresident : entry.opType = .flush ↔ (s.slots entry.slot).resident = true) :
    Step s .upgrade { s with worker := .running entry.slot entry.opType entry.callbacks }
  | finish {id : ObjSlotId} {opType : OpType} {callbacks : List κ} (outcome : Outcome)
    (hrunning : s.worker = .running id opType callbacks) :
    Step s (.finish outcome) (s.finishTask id opType callbacks outcome)
  | notify {id : ObjSlotId} {callback : κ} {callbacks : List κ} {success : Bool}
    (hworker : s.worker = .notifying id (callback :: callbacks) success) :
    Step s .notify { s.endCallbacks [callback] (if success then .succeeded else .failed) with
      worker := .notifying id callbacks success }
  | notified {id : ObjSlotId} {success : Bool} (hworker : s.worker = .notifying id [] success) :
    Step s .notify { s with worker := .idle }
  | close : Step s .close { s with closed := true }

variable {s s' : Manager κ}

theorem attempt_cases (hindexed : s.queue.WellIndexed) {t : ThreadId} {e : EnqueueEntry κ}
    (hcaller : s.callers.lookup t = some e) (hok : s.attempt t e = .ok s') :
    s.Step (.lock t) s' := by
  unfold Manager.attempt at hok
  obtain ⟨-, -, hok⟩ := bind_eq_ok.1 hok
  obtain ⟨⟨r, q⟩, henqueue, hok⟩ := bind_eq_ok.1 hok
  obtain rfl := Except.ok.inj hok
  obtain ⟨hchange, hindexed⟩ := hindexed.enqueue_cases henqueue
  cases hchange with
  | unnecessary hinit hresident => exact .unnecessary hcaller hinit hresident
  | full hnew hfull => exact .nothing _
  | @joined i entry opType _ hentry hslot hmerge hqueue hbase =>
    have hmem : e.slot ∈ s.queuedSlots := List.mem_map.2 ⟨entry, List.mem_of_getElem? hentry, hslot⟩
    unfold afterEnqueue
    rw [if_pos hmem]
    exact .joined hcaller hentry hslot hmerge hqueue hbase hindexed
  | pushed hnew hroom hqueue hbase =>
    unfold afterEnqueue
    rw [if_neg (show e.slot ∉ s.queuedSlots from hnew)]
    exact .pushed hcaller hroom hqueue hbase hindexed

theorem takeEntry_cases (hindexed : s.queue.WellIndexed) (hidle : s.worker = .idle)
    (hok : s.takeEntry = .ok s') : s.Step .dequeue s' := by
  unfold Manager.takeEntry at hok
  split_ifs at hok
  · obtain rfl := Except.ok.inj hok
    exact .nothing _
  · obtain ⟨⟨r, q⟩, hdequeue, hok⟩ := bind_eq_ok.1 hok
    rcases hindexed.dequeue_cases hdequeue with
      ⟨-, rfl, -⟩ | ⟨entry, rest, hqueue, rfl, rfl, hbase, hindexed⟩
    · obtain rfl := Except.ok.inj hok
      exact .nothing _
    · obtain rfl := Except.ok.inj hok
      exact .dequeue hidle hqueue hbase hindexed

theorem startTask_cases {entry : QueueEntry κ} (htook : s.worker = .took entry)
    (hok : s.startTask entry = .ok s') : s.Step .upgrade s' := by
  unfold Manager.startTask at hok
  split at hok
  · rename_i fabric resident hlive
    have hresident : (s.slots entry.slot).resident = resident := by rw [hlive]; rfl
    split at hok
    · rename_i hop
      obtain rfl := Except.ok.inj hok
      exact .ready htook (by rw [hop]; nofun) hresident
    · rename_i hop
      obtain rfl := Except.ok.inj hok
      exact .start htook (by rw [hop, hresident]; simp)
    · rename_i hop
      obtain rfl := Except.ok.inj hok
      exact .start htook (by rw [hop, hresident]; simp)
    · cases hok
  · rename_i hgone
    obtain rfl := Except.ok.inj hok
    exact .gone htook hgone

theorem step_cases (hindexed : s.queue.WellIndexed) {event : Event κ}
    (hok : s.step event = .ok s') :
    s.Step event s' := by
  cases event with
  | newSlot id fabric =>
    simp only [step] at hok
    split_ifs at hok with hfree
    · obtain rfl := Except.ok.inj hok
      exact .newSlot hfree
    · obtain rfl := Except.ok.inj hok
      exact .nothing _
  | dropSlot id =>
    simp only [step] at hok
    split at hok
    · rename_i fabric resident hlive
      split_ifs at hok with harc
      · obtain rfl := Except.ok.inj hok
        exact .nothing _
      · obtain rfl := Except.ok.inj hok
        exact .dropSlot hlive (Bool.not_eq_true _ ▸ harc)
    · obtain rfl := Except.ok.inj hok
      exact .nothing _
  | deallocSlot id =>
    simp only [step] at hok
    split_ifs at hok with hdead
    · obtain rfl := Except.ok.inj hok
      exact .deallocSlot hdead.1 hdead.2
    · obtain rfl := Except.ok.inj hok
      exact .nothing _
  | enqueueInit t id callback =>
    simp only [step] at hok
    split at hok
    · rename_i fabric resident hlive hnone
      obtain rfl := Except.ok.inj hok
      exact .enqueueInit hlive hnone
    · obtain rfl := Except.ok.inj hok
      exact .nothing _
  | enqueueFlush t id callback =>
    simp only [step] at hok
    split at hok
    · rename_i fabric resident hlive hnone
      obtain rfl := Except.ok.inj hok
      simp only [call, hlive, true_and]
      cases resident with
      | true => exact .enqueueFlush hlive hnone
      | false => exact .skipFlush hlive hnone
    · obtain rfl := Except.ok.inj hok
      exact .nothing _
  | lock t =>
    simp only [step] at hok
    split at hok
    · rename_i e hcaller
      exact attempt_cases hindexed hcaller hok
    · obtain rfl := Except.ok.inj hok
      exact .nothing _
  | dequeue =>
    simp only [step] at hok
    split at hok
    · rename_i hidle
      exact takeEntry_cases hindexed hidle hok
    · obtain rfl := Except.ok.inj hok
      exact .nothing _
  | upgrade =>
    simp only [step] at hok
    split at hok
    · rename_i entry htook
      exact startTask_cases htook hok
    · obtain rfl := Except.ok.inj hok
      exact .nothing _
  | finish outcome =>
    simp only [step] at hok
    split at hok
    · rename_i id opType callbacks hrunning
      obtain rfl := Except.ok.inj hok
      exact .finish outcome hrunning
    · obtain rfl := Except.ok.inj hok
      exact .nothing _
  | notify =>
    simp only [step] at hok
    split at hok
    · rename_i hworker
      obtain rfl := Except.ok.inj hok
      exact .notified hworker
    · rename_i hworker
      obtain rfl := Except.ok.inj hok
      exact .notify hworker
    · obtain rfl := Except.ok.inj hok
      exact .nothing _
  | close =>
    obtain rfl := Except.ok.inj hok
    exact .close

end Manager

/-! ## Invariant -/

/-- The slot is there, belongs to the fabric of an `Init` and has the page of a `Flush`. -/
def SlotMemory.Serves : SlotMemory → OpType → Prop
  | .live fabric _, .init fabric' => fabric' = fabric
  | .live _ resident, .flush => resident = true
  | _, _ => False

/-- The slot serves the operation, or is gone and its memory is not used again. -/
def SlotMemory.Keeps (m : SlotMemory) (opType : OpType) : Prop := m = .dead ∨ m.Serves opType

theorem not_keeps_free {opType : OpType} : ¬ SlotMemory.free.Keeps opType := by
  rintro (hdead | hserves)
  · cases hdead
  · cases opType <;> cases hserves

theorem SlotMemory.Serves.resident {m : SlotMemory} (h : m.Serves .flush) : m.resident = true := by
  cases m with
  | live fabric resident => exact h
  | free => cases h
  | dead => cases h

/-- A page that is made keeps every promise about its slot. -/
theorem SlotMemory.Serves.withPage {m : SlotMemory} {opType : OpType} (h : m.Serves opType) :
    m.withPage.Serves opType := by
  cases m with
  | live fabric resident =>
    cases opType with
    | init fabric' => exact h
    | flush => rfl
  | free => exact h
  | dead => exact h

theorem SlotMemory.Keeps.withPage {m : SlotMemory} {opType : OpType} (h : m.Keeps opType) :
    m.withPage.Keeps opType := by
  rcases h with rfl | hserves
  · exact .inl rfl
  · exact .inr hserves.withPage

theorem SlotMemory.Serves.merge_ok {m : SlotMemory} {enqueued queued : OpType}
    (h : m.Serves enqueued) (hkeeps : m.Keeps queued)
    (hneeded : ¬ (enqueued ≠ .flush ∧ m.resident = true)) :
    ∃ opType, Queue.merge enqueued queued m.resident = .ok opType := by
  have hqueued : m.Serves queued := by
    refine hkeeps.resolve_left ?_
    rintro rfl
    cases enqueued <;> cases h
  cases enqueued with
  | init fabric =>
    cases queued with
    | init fabric' =>
      cases m with
      | live fabric'' resident =>
        obtain rfl : fabric = fabric'' := h
        obtain rfl : fabric' = fabric := hqueued
        exact ⟨_, if_pos rfl⟩
      | free => cases h
      | dead => cases h
    | flush => exact absurd ⟨nofun, hqueued.resident⟩ hneeded
  | flush =>
    cases queued with
    | init fabric => exact ⟨.flush, if_pos h.resident⟩
    | flush => exact ⟨.flush, rfl⟩

/-- The merged operation is one of the two. -/
theorem Queue.merge_eq {enqueued queued opType : OpType} {resident : Bool}
    (h : Queue.merge enqueued queued resident = .ok opType) :
    opType = queued ∨ opType = enqueued := by
  unfold Queue.merge at h
  split at h
  · split_ifs at h
    exact .inl (Except.ok.inj h).symm
  · exact .inl (Except.ok.inj h).symm
  · cases h
  · split_ifs at h
    exact .inr (Except.ok.inj h).symm

namespace Manager

/-- What holds of the manager between any two events. -/
structure Inv (s : Manager κ) : Prop where
  indexed : s.queue.WellIndexed
  bounded : s.queue.queue.length ≤ s.queueLimit
  order : s.arrived = s.departed ++ s.queuedSlots
  queued : ∀ entry ∈ s.queue.queue, (s.slots entry.slot).Keeps entry.opType
  taken : ∀ entry, s.worker = .took entry → (s.slots entry.slot).Keeps entry.opType
  calling : ∀ t e, s.callers.lookup t = some e → (s.slots e.slot).Serves e.opType

theorem inv_new (queueLimit : ℕ) : (new queueLimit : Manager κ).Inv where
  indexed := Queue.wellIndexed_new
  bounded := Nat.zero_le _
  order := rfl
  queued := fun _ hentry => by cases hentry
  taken := fun _ hworker => by cases hworker
  calling := fun _ _ hcaller => by cases hcaller

variable {s s' : Manager κ}

theorem hasArc_of_lookup {t : ThreadId} {e : EnqueueEntry κ}
    (hcaller : s.callers.lookup t = some e) :
    s.hasArc e.slot = true := by
  have hmem : (⟨t, e⟩ : Sigma fun _ : ThreadId => EnqueueEntry κ) ∈ s.callers.entries :=
    AList.mem_lookup_iff.1 hcaller
  simp only [hasArc, Bool.or_eq_true, List.any_eq_true]
  exact .inl ⟨_, hmem, by simp⟩

/-- A slot changes, in a way that the queue, the worker and the callers do not mind. -/
theorem Inv.updateSlot (h : s.Inv) {id : ObjSlotId} {m : SlotMemory}
    (hkeeps : ∀ opType, s.hasWeak id = true → (s.slots id).Keeps opType → m.Keeps opType)
    (hserves : ∀ opType, s.hasArc id = true → (s.slots id).Serves opType → m.Serves opType) :
    ({ s with slots := Function.update s.slots id m } : Manager κ).Inv := by
  -- an entry of the queue or of the worker
  have hweak : ∀ entry : QueueEntry κ, s.hasWeak entry.slot = true →
      (s.slots entry.slot).Keeps entry.opType →
      (Function.update s.slots id m entry.slot).Keeps entry.opType := by
    intro entry hhas hold
    by_cases hid : entry.slot = id
    · rw [hid, Function.update_self]
      rw [hid] at hhas hold
      exact hkeeps _ hhas hold
    · rw [Function.update_of_ne hid]
      exact hold
  refine ⟨h.indexed, h.bounded, h.order, fun entry hentry => ?_, fun entry hworker => ?_,
    fun t e hcaller => ?_⟩
  · refine hweak entry ?_ (h.queued entry hentry)
    simp only [hasWeak, Bool.or_eq_true, List.any_eq_true]
    exact .inl ⟨entry, hentry, by simp⟩
  · change s.worker = .took entry at hworker
    refine hweak entry ?_ (h.taken entry hworker)
    simp [hasWeak, hworker, Worker.hasWeak]
  · have hold := h.calling t e hcaller
    have hhas : s.hasArc e.slot = true := hasArc_of_lookup hcaller
    show (Function.update s.slots id m e.slot).Serves e.opType
    by_cases hid : e.slot = id
    · rw [hid, Function.update_self]
      rw [hid] at hhas hold
      exact hserves _ hhas hold
    · rw [Function.update_of_ne hid]
      exact hold

/-- The worker goes on to something else than a new entry. -/
theorem Inv.withWorker (h : s.Inv) {worker : Worker κ} (hworker : ∀ entry, worker ≠ .took entry) :
    ({ s with worker := worker } : Manager κ).Inv where
  indexed := h.indexed
  bounded := h.bounded
  order := h.order
  queued := h.queued
  taken := fun entry htook => absurd htook (hworker entry)
  calling := h.calling

/-- The logs of callbacks are not read. -/
theorem Inv.endCallbacks (h : s.Inv) (callbacks : List κ) (how : CallbackEnd) :
    (s.endCallbacks callbacks how).Inv :=
  ⟨h.indexed, h.bounded, h.order, h.queued, h.taken, h.calling⟩

theorem Inv.insert_calling (h : s.Inv) (t : ThreadId) {e : EnqueueEntry κ}
    (hserves : (s.slots e.slot).Serves e.opType) :
    ∀ t' e', (s.callers.insert t e).lookup t' = some e' → (s.slots e'.slot).Serves e'.opType := by
  intro t' e' hcaller
  by_cases ht : t' = t
  · subst ht
    obtain rfl := Option.some.inj ((AList.lookup_insert _).symm.trans hcaller)
    exact hserves
  · exact h.calling t' e' ((AList.lookup_insert_ne ht).symm.trans hcaller)

/-- A caller that is done does not call any more. -/
theorem Inv.erase_calling (h : s.Inv) (t : ThreadId) :
    ∀ t' e', (s.callers.erase t).lookup t' = some e' → (s.slots e'.slot).Serves e'.opType := by
  intro t' e' hcaller
  by_cases ht : t' = t
  · subst ht
    rw [AList.lookup_erase] at hcaller
    cases hcaller
  · rw [AList.lookup_erase_ne ht] at hcaller
    exact h.calling t' e' hcaller

/-- The entries after one of them has changed. -/
theorem mem_modify_join {queue : List (QueueEntry κ)} {i : ℕ} {entry : QueueEntry κ}
    {opType : OpType} {callback : Option κ} (hentry : queue[i]? = some entry)
    {entry' : QueueEntry κ} (hmem : entry' ∈ queue.modify i (·.join opType callback)) :
    entry' ∈ queue ∨ entry' = entry.join opType callback := by
  rcases mem_modify hmem with hold | ⟨a, ha, rfl⟩
  · exact .inl hold
  · obtain rfl := Option.some.inj (ha.symm.trans hentry)
    exact .inr rfl

/-- One event keeps the invariant. -/
theorem Inv.step (h : s.Inv) {event : Event κ} (hstep : s.Step event s') : s'.Inv := by
  cases hstep with
  | nothing => exact h
  | newSlot hfree =>
    refine h.updateSlot (fun opType _ hkeeps => ?_) (fun opType _ hserves => ?_)
    · rw [hfree] at hkeeps
      exact absurd hkeeps not_keeps_free
    · rw [hfree] at hserves
      exact absurd (.inr hserves) not_keeps_free
  | dropSlot hlive harc =>
    refine h.updateSlot (fun _ _ _ => .inl rfl) (fun _ hhas => ?_)
    rw [harc] at hhas
    cases hhas
  | deallocSlot hdead hweak =>
    refine h.updateSlot (fun _ hhas => ?_) (fun opType _ hserves => ?_)
    · rw [hweak] at hhas
      cases hhas
    · rw [hdead] at hserves
      cases opType <;> cases hserves
  | enqueueInit hlive hnone =>
    refine ⟨h.indexed, h.bounded, h.order, h.queued, h.taken, h.insert_calling _ ?_⟩
    simp only [hlive]
    rfl
  | enqueueFlush hlive hnone =>
    refine ⟨h.indexed, h.bounded, h.order, h.queued, h.taken, h.insert_calling _ ?_⟩
    simp only [hlive]
    rfl
  | skipFlush hlive hnone => exact h.endCallbacks _ _
  | unnecessary hcaller hinit hresident =>
    exact ⟨h.indexed, h.bounded, h.order, h.queued, h.taken, h.erase_calling _⟩
  | @joined t e i entry opType q hcaller hentry hslot hmerge hqueue hbase hindexed =>
    refine ⟨hindexed, ?_, ?_, ?_, h.taken, h.erase_calling t⟩
    · show q.queue.length ≤ s.queueLimit
      rw [hqueue, List.length_modify]
      exact h.bounded
    · show s.arrived = s.departed ++ q.queue.map (·.slot)
      rw [hqueue, map_modify (f := QueueEntry.join opType e.callback) _ _ fun _ => rfl]
      exact h.order
    · intro entry' hentry'
      change entry' ∈ q.queue at hentry'
      rw [hqueue] at hentry'
      rcases mem_modify_join hentry hentry' with hold | rfl
      · exact h.queued entry' hold
      · -- the merged operation is the old one or that of the caller
        show (s.slots entry.slot).Keeps opType
        rcases Queue.merge_eq hmerge with rfl | rfl
        · exact h.queued entry (List.mem_of_getElem? hentry)
        · rw [hslot]
          exact .inr (h.calling t e hcaller)
  | @pushed t e q hcaller hroom hqueue hbase hindexed =>
    refine ⟨hindexed, ?_, ?_, ?_, h.taken, h.erase_calling t⟩
    · show q.queue.length ≤ s.queueLimit
      rw [hqueue, List.length_append, List.length_singleton]
      exact hroom
    · show s.arrived ++ [e.slot] = s.departed ++ q.queue.map (·.slot)
      rw [hqueue, List.map_append, ← List.append_assoc, h.order]
      rfl
    · intro entry' hentry'
      change entry' ∈ q.queue at hentry'
      rw [hqueue, List.mem_append, List.mem_singleton] at hentry'
      rcases hentry' with hold | rfl
      · exact h.queued entry' hold
      · exact .inr (h.calling t e hcaller)
  | @dequeue entry q hidle hqueue hbase hindexed =>
    have hbounded := h.bounded
    have horder := h.order
    unfold queuedSlots at horder
    rw [hqueue] at hbounded horder
    refine ⟨hindexed, Nat.le_of_succ_le hbounded, ?_, ?_, ?_, h.calling⟩
    · show s.arrived = s.departed ++ [entry.slot] ++ q.queue.map (·.slot)
      rw [horder, List.append_assoc]
      rfl
    · intro entry' hentry'
      refine h.queued entry' ?_
      rw [hqueue]
      exact List.mem_cons_of_mem _ hentry'
    · rintro _ ⟨⟩
      refine h.queued entry ?_
      rw [hqueue]
      exact List.mem_cons_self
  | gone htook hgone => exact (h.endCallbacks _ .dropped).withWorker nofun
  | ready htook hinit hresident => exact h.withWorker nofun
  | start htook hresident => exact h.withWorker nofun
  | @finish id opType callbacks outcome hrunning =>
    unfold finishTask
    split_ifs
    · exact (h.updateSlot (fun _ _ hkeeps => hkeeps.withPage)
        (fun _ _ hserves => hserves.withPage)).withWorker nofun
    · exact h.withWorker nofun
  | notify hworker => exact (h.endCallbacks _ _).withWorker nofun
  | notified hworker => exact h.withWorker nofun
  | close => exact ⟨h.indexed, h.bounded, h.order, h.queued, h.taken, h.calling⟩

/-! ## No failure -/

theorem Inv.attempt_error (h : s.Inv) (hfits : s.queue.Fits) {t : ThreadId} {e : EnqueueEntry κ}
    (hcaller : s.callers.lookup t = some e) {f : Failure} (herr : s.attempt t e = .error f) :
    f = .workerThreadDied := by
  unfold Manager.attempt at herr
  by_cases hclosed : s.closed = false
  · have hserves := h.calling t e hcaller
    obtain ⟨⟨r, q⟩, henqueue⟩ : ∃ r, s.queue.enqueue e (s.slots e.slot).resident s.queueLimit =
        .ok r := by
      refine h.indexed.enqueue_ok hfits fun hneeded entry hentry hslot => ?_
      have hkeeps := h.queued entry hentry
      rw [hslot] at hkeeps
      exact hserves.merge_ok hkeeps hneeded
    rw [henqueue] at herr
    simp only [require, hclosed, if_true, ok_bind] at herr
    cases herr
  · simp only [require, hclosed] at herr
    exact (Except.error.inj herr).symm

theorem Inv.takeEntry_error (h : s.Inv) (hfits : s.queue.Fits) {f : Failure} :
    s.takeEntry ≠ .error f := by
  unfold Manager.takeEntry
  split_ifs
  · nofun
  · obtain ⟨⟨r, q⟩, hdequeue⟩ := h.indexed.dequeue_ok hfits
    rw [hdequeue, ok_bind]
    cases r with
    | none => nofun
    | some entry => nofun

theorem Inv.startTask_error (h : s.Inv) {entry : QueueEntry κ} (hworker : s.worker = .took entry)
    {f : Failure} : s.startTask entry ≠ .error f := by
  have hkeeps := h.taken entry hworker
  unfold Manager.startTask
  split
  · rename_i fabric resident hid
    split
    · nofun
    · nofun
    · nofun
    · -- a flush is taken only for a slot that has its page
      rename_i hop
      rw [hid, hop] at hkeeps
      rcases hkeeps with hdead | hserves
      · cases hdead
      · cases hserves
  · nofun

/-- No event fails while the positions fit, except that a caller finds the manager closed. -/
theorem Inv.step_error (h : s.Inv) (hfits : s.queue.Fits) {event : Event κ} {f : Failure}
    (herr : s.step event = .error f) : f = .workerThreadDied := by
  cases event with
  | newSlot id fabric =>
    simp only [Manager.step] at herr
    split_ifs at herr
  | dropSlot id =>
    simp only [Manager.step] at herr
    split at herr
    · split_ifs at herr
    · cases herr
  | deallocSlot id =>
    simp only [Manager.step] at herr
    split_ifs at herr
  | enqueueInit t id callback =>
    simp only [Manager.step] at herr
    split at herr <;> cases herr
  | enqueueFlush t id callback =>
    simp only [Manager.step] at herr
    split at herr <;> cases herr
  | lock t =>
    simp only [Manager.step] at herr
    split at herr
    · rename_i e hcaller
      exact h.attempt_error hfits hcaller herr
    · cases herr
  | dequeue =>
    simp only [Manager.step] at herr
    split at herr
    · exact absurd herr (h.takeEntry_error hfits)
    · cases herr
  | upgrade =>
    simp only [Manager.step] at herr
    split at herr
    · rename_i entry hworker
      exact absurd herr (h.startTask_error hworker)
    · cases herr
  | finish outcome =>
    simp only [Manager.step] at herr
    split at herr <;> cases herr
  | notify =>
    simp only [Manager.step] at herr
    split at herr <;> cases herr
  | close => cases herr

/-! ## Runs -/

theorem run_concat (queueLimit : ℕ) (events : List (Event κ)) (event : Event κ) :
    run queueLimit (events ++ [event]) = run queueLimit events >>= fun s => s.step event :=
  foldlM_concat _ events event

theorem inv_run {queueLimit : ℕ} {events : List (Event κ)} (hrun : run queueLimit events = .ok s) :
    s.Inv :=
  (everyCall_trivial _ _).invariant (inv_new queueLimit)
    (fun _ _ _ h _ hok => h.step (step_cases h.indexed hok)) hrun

/-- An event hands out at most one more position. -/
theorem count_step {event : Event κ} (hstep : s.Step event s') :
    s'.queue.base + s'.queue.queue.length ≤ s.queue.base + s.queue.queue.length + 1 := by
  cases hstep with
  | joined hcaller hentry hslot hmerge hqueue hbase hindexed =>
    simp only [hqueue, hbase, List.length_modify]
    omega
  | pushed hcaller hroom hqueue hbase hindexed =>
    simp only [hqueue, hbase, List.length_append, List.length_singleton]
    omega
  | dequeue hidle hqueue hbase hindexed =>
    simp only [hqueue, List.length_cons]
    omega
  | _ => exact Nat.le_succ _

/-- In a run of fewer than `2 ^ 64` events every position fits. -/
theorem fits_run {queueLimit : ℕ} {events : List (Event κ)} (hlength : events.length < 2 ^ 64)
    (hrun : run queueLimit events = .ok s) : s.queue.Fits := by
  have hcount : ∀ s : Manager κ, run queueLimit events = .ok s →
      s.queue.base + s.queue.queue.length ≤ events.length := by
    clear hrun hlength
    induction events using List.reverseRecOn with
    | nil =>
      intro s hrun
      obtain rfl := Except.ok.inj hrun
      exact le_rfl
    | append_singleton events event ih =>
      intro s hrun
      rw [run_concat] at hrun
      obtain ⟨s₁, hrun₁, hstep⟩ := bind_eq_ok.1 hrun
      have hle := ih s₁ hrun₁
      have hone := count_step (step_cases (inv_run hrun₁).indexed hstep)
      rw [List.length_append, List.length_singleton]
      omega
  exact lt_of_le_of_lt (hcount s hrun) hlength

/-- What the queue promises: its length, its index, the pages of its flushes and the order in
    which entries leave it. -/
structure QueueInvariant (s : Manager κ) : Prop where
  bounded : s.queue.queue.length ≤ s.queueLimit
  nodup : s.queuedSlots.Nodup
  exact : ∀ id position, s.queue.alreadyInQueue.lookup id = some position ↔
    ∃ i, s.queuedSlots[i]? = some id ∧ position = s.queue.base + i
  resident : ∀ entry ∈ s.queue.queue, entry.opType = .flush →
    s.slots entry.slot = .dead ∨ ∃ fabric, s.slots entry.slot = .live fabric true
  order : s.arrived = s.departed ++ s.queuedSlots

theorem Inv.queueInvariant (h : s.Inv) : s.QueueInvariant where
  bounded := h.bounded
  nodup := h.indexed.nodup
  exact := h.indexed.lookup_iff
  resident := by
    intro entry hentry hop
    have hkeeps := h.queued entry hentry
    rw [hop] at hkeeps
    refine hkeeps.imp_right fun hserves => ?_
    have hresident := hserves.resident
    obtain ⟨fabric, resident, hslot⟩ :=
      SlotMemory.isLive_iff.1 (SlotMemory.isLive_of_resident hresident)
    rw [hslot] at hresident ⊢
    obtain rfl : resident = true := hresident
    exact ⟨fabric, rfl⟩
  order := h.order

/-- Whatever the callers, the worker and the owners of the slots do, as long as the positions
    fit into a `u64`. -/
theorem queue_invariant (queueLimit : ℕ) (events : List (Event κ))
    (hfits : ∀ before after s, events = before ++ after → run queueLimit before = .ok s →
      s.queue.Fits) :
    (∀ s, run queueLimit events = .ok s → s.QueueInvariant) ∧
    ∀ f, run queueLimit events = .error f → f = .workerThreadDied := by
  refine ⟨fun s hrun => (inv_run hrun).queueInvariant, ?_⟩
  induction events using List.reverseRecOn with
  | nil =>
    intro f hrun
    cases hrun
  | append_singleton events event ih =>
    intro f hrun
    rw [run_concat] at hrun
    cases hrun₁ : run queueLimit events with
    | error f₁ =>
      rw [hrun₁] at hrun
      obtain rfl := Except.error.inj hrun
      refine ih (fun before after s hevents => ?_) f₁ hrun₁
      exact hfits before (after ++ [event]) s (by rw [hevents, List.append_assoc])
    | ok s₁ =>
      rw [hrun₁] at hrun
      exact (inv_run hrun₁).step_error (hfits events [event] s₁ rfl hrun₁) hrun

/-- A page is made and flushed, and the flush is queued while the slot is dropped. -/
def initFlushDrop : List (Event ℕ) :=
  [.newSlot 7 0, .enqueueInit 1 7 (some 10), .lock 1, .dequeue, .upgrade, .finish .success, .notify,
    .notify, .enqueueFlush 1 7 (some 11), .lock 1, .dropSlot 7, .deallocSlot 7, .newSlot 7 0]

theorem queue_invariant_initFlushDrop :
    ∃ s, run 4 initFlushDrop = .ok s ∧ s.queuedSlots = [7] ∧ s.QueueInvariant := by
  refine ⟨_, rfl, rfl, ?_⟩
  refine (queue_invariant 4 initFlushDrop fun before after s hevents hrun =>
    fits_run ?_ hrun).1 _ rfl
  have hlength : before.length + after.length = 13 := by
    rw [← List.length_append, ← hevents]
    rfl
  omega

end Manager

end RapidArm.Objects
