import RapidArm.Objects.Requests
import RapidArm.Lib.Trace

/-!
# The history of the object manager

The object manager with a record of what was asked of it and of what it did: the calls of
`enqueue_init` and `enqueue_flush` that came with a callback, the calls of
`fault_in_exclusive` and `fault_out` that have returned
(`io-mmu/src/cpu_fabric/object_manager.rs`, lines 337–425), and the content with which a page
was made (`MemoryBackedPage::fault_object`, `io-mmu/src/page_table.rs`, lines 132–149). A
callback is a box of its own; here it is the number of the call that it came with.

The calls of an object are kept by slot, and forgotten when another slot takes its address.

Results:
* `Manager.callbacks_step`: no step loses or doubles a callback.
* `Inv.step`: each callback that was passed is at one place, and the calls of a slot explain
  its page.
-/

namespace RapidArm.Objects

open RapidArm.Lib

/-! ## Callbacks -/

variable {κ : Type}

/-- The callbacks of the entry that the worker is at. -/
def Worker.callbacks : Worker κ → List κ
  | .idle => []
  | .took entry => entry.callbacks
  | .running _ _ callbacks => callbacks
  | .notifying _ callbacks _ => callbacks

namespace Manager

/-- The callbacks that were passed to the manager, in the order of the places where they are. -/
def callbacks (s : Manager κ) : List κ :=
  s.callers.entries.flatMap (·.2.callback.toList) ++ s.queue.queue.flatMap (·.callbacks) ++
    s.worker.callbacks ++ s.ended.map Prod.fst

/-- The call is made: the slot is there and the thread is in no other call. -/
def accepts (s : Manager κ) (t : ThreadId) (id : ObjSlotId) : Bool :=
  (s.slots id).isLive && (s.callers.lookup t).isNone

/-- The callbacks that an event passes to the manager. -/
def brought (s : Manager κ) : Event κ → List κ
  | .enqueueInit t id callback => if s.accepts t id then callback.toList else []
  | .enqueueFlush t id callback => if s.accepts t id then callback.toList else []
  | _ => []

variable {s s' : Manager κ}

theorem accepts_eq_true {t : ThreadId} {id : ObjSlotId} :
    s.accepts t id = true ↔
      (∃ fabric resident, s.slots id = .live fabric resident) ∧ s.callers.lookup t = none := by
  unfold accepts
  rw [Bool.and_eq_true, Option.isNone_iff_eq_none, SlotMemory.isLive_iff]

theorem step_enqueueInit {t : ThreadId} {id : ObjSlotId} {fabric : CpuFabricId} {resident : Bool}
    (hlive : s.slots id = .live fabric resident) (hnone : s.callers.lookup t = none)
    {callback : Option κ} :
    s.step (.enqueueInit t id callback) = .ok (s.call t ⟨id, .init fabric, callback⟩) := by
  simp only [step, hlive, hnone]

theorem step_enqueueFlush {t : ThreadId} {id : ObjSlotId} {fabric : CpuFabricId} {resident : Bool}
    (hlive : s.slots id = .live fabric resident) (hnone : s.callers.lookup t = none)
    {callback : Option κ} :
    s.step (.enqueueFlush t id callback) = .ok (s.call t ⟨id, .flush, callback⟩) := by
  simp only [step, hlive, hnone]

theorem step_of_not_accepts {t : ThreadId} {id : ObjSlotId} (haccepts : ¬ s.accepts t id = true)
    {event : Event κ} {callback : Option κ}
    (hevent : event = .enqueueInit t id callback ∨ event = .enqueueFlush t id callback)
    (hok : s.step event = .ok s') : s' = s := by
  rcases hevent with rfl | rfl
  all_goals
    simp only [step] at hok
    split at hok
    · rename_i fabric resident hlive hnone
      exact absurd (accepts_eq_true.2 ⟨⟨fabric, resident, hlive⟩, hnone⟩) haccepts
    · exact (Except.ok.inj hok).symm

section Count

variable [DecidableEq κ] (c : κ)

theorem count_callbacks : s.callbacks.count c =
    (s.callers.entries.flatMap (·.2.callback.toList)).count c +
      (s.queue.queue.flatMap (·.callbacks)).count c + s.worker.callbacks.count c +
      (s.ended.map Prod.fst).count c := by
  unfold callbacks
  rw [List.count_append, List.count_append, List.count_append]

theorem count_insert_caller {callers : AList fun _ : ThreadId => EnqueueEntry κ} {t : ThreadId}
    (hnone : callers.lookup t = none) (e : EnqueueEntry κ) :
    ((callers.insert t e).entries.flatMap (·.2.callback.toList)).count c =
      (callers.entries.flatMap (·.2.callback.toList)).count c + e.callback.toList.count c := by
  rw [AList.entries_insert_of_notMem (AList.lookup_eq_none.1 hnone), List.flatMap_cons,
    List.count_append, Nat.add_comm]

theorem count_erase_caller {callers : AList fun _ : ThreadId => EnqueueEntry κ} {t : ThreadId}
    {e : EnqueueEntry κ} (hcaller : callers.lookup t = some e) :
    (callers.entries.flatMap (·.2.callback.toList)).count c =
      ((callers.erase t).entries.flatMap (·.2.callback.toList)).count c +
        e.callback.toList.count c := by
  have hmem : t ∈ callers := AList.lookup_isSome.1 (by rw [hcaller]; rfl)
  obtain ⟨e', before, after, -, hentries, herase⟩ := List.exists_of_kerase hmem
  have he : e' = e := by
    have hlookup : callers.lookup t = some e' := by
      refine AList.mem_lookup_iff.2 ?_
      rw [hentries]
      exact List.mem_append_right _ List.mem_cons_self
    exact Option.some.inj (hlookup.symm.trans hcaller)
  rw [show (callers.erase t).entries = before ++ after from herase, hentries, he,
    List.flatMap_append, List.flatMap_append, List.flatMap_cons]
  simp only [List.count_append]
  omega

theorem count_modify_join {queue : List (QueueEntry κ)} {i : ℕ} {entry : QueueEntry κ}
    (hentry : queue[i]? = some entry) (opType : OpType) (callback : Option κ) :
    ((queue.modify i (·.join opType callback)).flatMap (·.callbacks)).count c =
      (queue.flatMap (·.callbacks)).count c + callback.toList.count c := by
  induction queue generalizing i with
  | nil => cases hentry
  | cons first queue ih =>
    cases i with
    | zero =>
      rw [List.modify_zero_cons, List.flatMap_cons, List.flatMap_cons]
      simp only [QueueEntry.join, List.count_append]
      omega
    | succ i =>
      rw [List.modify_succ_cons, List.flatMap_cons, List.flatMap_cons, List.count_append,
        List.count_append, ih hentry, Nat.add_assoc]

theorem count_endCallbacks (callbacks : List κ) (how : CallbackEnd) :
    ((s.endCallbacks callbacks how).ended.map Prod.fst).count c =
      (s.ended.map Prod.fst).count c + callbacks.count c := by
  simp [endCallbacks, List.count_append, Function.comp_def]

/-- A call that is made holds its callback, or is done with it. -/
theorem count_call {t : ThreadId} (hnone : s.callers.lookup t = none) (e : EnqueueEntry κ) :
    (s.call t e).callbacks.count c = s.callbacks.count c + e.callback.toList.count c := by
  unfold call
  split_ifs
  · rw [count_callbacks, count_callbacks, count_endCallbacks]
    simp only [endCallbacks]
    omega
  · rw [count_callbacks, count_callbacks]
    simp only [count_insert_caller c hnone]
    omega

/-- The steps that pass no callback lose none and double none. -/
theorem count_step_of_quiet {event : Event κ} (hstep : s.Step event s')
    (hquiet : ∀ t id callback, event ≠ .enqueueInit t id callback ∧
      event ≠ .enqueueFlush t id callback) :
    s'.callbacks.count c = s.callbacks.count c := by
  cases hstep with
  | enqueueInit => exact absurd rfl (hquiet _ _ _).1
  | enqueueFlush => exact absurd rfl (hquiet _ _ _).2
  | skipFlush => exact absurd rfl (hquiet _ _ _).2
  | unnecessary hcaller hinit hresident =>
    rw [count_callbacks, count_callbacks]
    simp only [count_endCallbacks, count_erase_caller c hcaller]
    simp only [endCallbacks]
    omega
  | joined hcaller hentry hslot hmerge hqueue hbase hindexed =>
    rw [count_callbacks, count_callbacks]
    simp only [hqueue, count_modify_join c hentry, count_erase_caller c hcaller]
    omega
  | pushed hcaller hroom hqueue hbase hindexed =>
    rw [count_callbacks, count_callbacks]
    simp only [hqueue, List.flatMap_append, List.flatMap_cons, List.flatMap_nil, List.append_nil,
      List.count_append, count_erase_caller c hcaller]
    omega
  | dequeue hidle hqueue hbase hindexed =>
    rw [count_callbacks, count_callbacks]
    simp only [hqueue, hidle, Worker.callbacks, List.flatMap_cons, List.count_append,
      List.count_nil]
    omega
  | gone htook hgone =>
    rw [count_callbacks, count_callbacks]
    simp only [count_endCallbacks, htook, Worker.callbacks, List.count_nil]
    simp only [endCallbacks]
    omega
  | ready htook hinit hresident =>
    rw [count_callbacks, count_callbacks]
    simp only [htook, Worker.callbacks]
  | start htook hresident =>
    rw [count_callbacks, count_callbacks]
    simp only [htook, Worker.callbacks]
  | finish outcome hrunning =>
    rw [count_callbacks, count_callbacks]
    simp only [finishTask, hrunning, Worker.callbacks]
  | notify hworker =>
    rw [count_callbacks, count_callbacks]
    simp only [count_endCallbacks, hworker, Worker.callbacks, List.count_cons, List.count_nil]
    simp only [endCallbacks]
    omega
  | notified hworker =>
    rw [count_callbacks, count_callbacks]
    simp only [hworker, Worker.callbacks]
  | _ => rfl

/-- Each callback that is passed is held once, and no other. -/
theorem callbacks_step (hindexed : s.queue.WellIndexed) {event : Event κ}
    (hok : s.step event = .ok s') :
    s'.callbacks.count c = s.callbacks.count c + (s.brought event).count c := by
  cases event with
  | enqueueInit t id callback =>
    by_cases haccepts : s.accepts t id = true
    · obtain ⟨⟨fabric, resident, hlive⟩, hnone⟩ := accepts_eq_true.1 haccepts
      rw [step_enqueueInit hlive hnone] at hok
      obtain rfl := Except.ok.inj hok
      rw [count_call c hnone, brought, if_pos haccepts]
    · obtain rfl := step_of_not_accepts haccepts (.inl rfl) hok
      rw [brought, if_neg haccepts]
      rfl
  | enqueueFlush t id callback =>
    by_cases haccepts : s.accepts t id = true
    · obtain ⟨⟨fabric, resident, hlive⟩, hnone⟩ := accepts_eq_true.1 haccepts
      rw [step_enqueueFlush hlive hnone] at hok
      obtain rfl := Except.ok.inj hok
      rw [count_call c hnone, brought, if_pos haccepts]
    · obtain rfl := step_of_not_accepts haccepts (.inr rfl) hok
      rw [brought, if_neg haccepts]
      rfl
  | _ => exact count_step_of_quiet c (step_cases hindexed hok) fun _ _ _ => ⟨nofun, nofun⟩

end Count

/-- A callback that is somewhere was passed. -/
theorem At.mem_callbacks {c : κ} {place : Place} (h : s.At c place) : c ∈ s.callbacks := by
  unfold callbacks
  simp only [List.mem_append, List.mem_flatMap, List.mem_map]
  cases h with
  | @calling t e hcaller hc =>
    exact .inl (.inl (.inl ⟨⟨t, e⟩, AList.mem_lookup_iff.1 hcaller, Option.mem_toList.2 hc⟩))
  | queued hentry hc => exact .inl (.inl (.inr ⟨_, hentry, hc⟩))
  | taken htook hc => exact .inl (.inr (by rw [htook]; exact hc))
  | running hrunning hc => exact .inl (.inr (by rw [hrunning]; exact hc))
  | notifying hnotifying hc => exact .inl (.inr (by rw [hnotifying]; exact hc))
  | ended hc => exact .inr ⟨_, hc, rfl⟩

/-- The memory of a slot changes when the slot is made and when its object returns. -/
theorem slots_eq_of_step {event : Event κ} (hstep : s.Step event s') {id : ObjSlotId}
    (hlive : (s'.slots id).isLive = true) (hnew : ∀ fabric, event ≠ .newSlot id fabric)
    (hfinish : ∀ outcome, event ≠ .finish outcome) : s'.slots id = s.slots id := by
  cases hstep with
  | @newSlot id' fabric hfree =>
    have hid : id ≠ id' := by
      rintro rfl
      exact hnew fabric rfl
    exact Function.update_of_ne hid _ _
  | @dropSlot id' fabric resident hwas harc =>
    refine Function.update_of_ne ?_ _ _
    rintro rfl
    simp [SlotMemory.isLive] at hlive
  | @deallocSlot id' hdead hweak =>
    refine Function.update_of_ne ?_ _ _
    rintro rfl
    simp [SlotMemory.isLive] at hlive
  | finish outcome => exact absurd rfl (hfinish outcome)
  | _ => rfl

/-- While its object runs, a slot is there, and it has a page exactly if it is flushed. -/
def RunningOk (s : Manager κ) : Prop :=
  ∀ id opType callbacks, s.worker = .running id opType callbacks →
    (s.slots id).isLive = true ∧ (opType = .flush ↔ (s.slots id).resident = true)

theorem runningOk_startTask {entry : QueueEntry κ} (hok : s.startTask entry = .ok s') :
    s'.RunningOk := by
  unfold startTask at hok
  split at hok
  · rename_i fabric resident hlive
    split at hok
    · obtain rfl := Except.ok.inj hok
      rintro _ _ _ ⟨⟩
    · rename_i hop
      obtain rfl := Except.ok.inj hok
      rintro _ _ _ ⟨⟩
      rw [hlive, hop]
      exact ⟨rfl, nofun, nofun⟩
    · rename_i hop
      obtain rfl := Except.ok.inj hok
      rintro _ _ _ ⟨⟩
      rw [hlive, hop]
      exact ⟨rfl, fun _ => rfl, fun _ => rfl⟩
    · cases hok
  · obtain rfl := Except.ok.inj hok
    rintro _ _ _ ⟨⟩

theorem RunningOk.step (h : s.RunningOk) {event : Event κ} (hindexed : s.queue.WellIndexed)
    (hok : s.step event = .ok s') : s'.RunningOk := by
  by_cases hupgrade : ∃ entry, event = .upgrade ∧ s.worker = .took entry
  · obtain ⟨entry, rfl, htook⟩ := hupgrade
    simp only [Manager.step, htook] at hok
    exact runningOk_startTask hok
  intro id opType callbacks hrunning
  have hstep := step_cases hindexed hok
  cases hstep with
  | @newSlot id' fabric hfree =>
    obtain ⟨hlive, hresident⟩ := h id opType callbacks hrunning
    have hid : id ≠ id' := by
      rintro rfl
      exact SlotMemory.ne_free hlive hfree
    simp only [Function.update_of_ne hid]
    exact ⟨hlive, hresident⟩
  | @dropSlot id' fabric resident hwas harc =>
    have hid : id ≠ id' := by
      rintro rfl
      change s.worker = .running id opType callbacks at hrunning
      simp [hasArc, hrunning, Worker.hasArc] at harc
    simp only [Function.update_of_ne hid]
    exact h id opType callbacks hrunning
  | @deallocSlot id' hdead hweak =>
    obtain ⟨hlive, hresident⟩ := h id opType callbacks hrunning
    have hid : id ≠ id' := by
      rintro rfl
      exact SlotMemory.ne_dead hlive hdead
    simp only [Function.update_of_ne hid]
    exact ⟨hlive, hresident⟩
  | dequeue => cases hrunning
  | gone => cases hrunning
  | ready => cases hrunning
  | start htook => exact absurd ⟨_, rfl, htook⟩ hupgrade
  | finish => cases hrunning
  | notify => cases hrunning
  | notified => cases hrunning
  | _ => exact h id opType callbacks hrunning

/-- A task is over when its object returns, and not before. -/
theorem running_of_step {event : Event κ} (hstep : s.Step event s') {id : ObjSlotId}
    {opType : OpType} {callbacks : List κ} (hrunning : s.worker = .running id opType callbacks)
    (hfinish : ∀ outcome, event ≠ .finish outcome) : s'.worker = .running id opType callbacks := by
  have hworker : ∀ {worker : Worker κ}, s.worker = worker → worker = .running id opType callbacks :=
    fun hw => hw.symm.trans hrunning
  cases hstep with
  | dequeue hidle => cases hworker hidle
  | gone htook => cases hworker htook
  | ready htook => cases hworker htook
  | start htook => cases hworker htook
  | finish outcome => exact absurd rfl (hfinish outcome)
  | notify hnotifying => cases hworker hnotifying
  | notified hnotifying => cases hworker hnotifying
  | _ => exact hrunning

/-- A task that is running was running before, or has just been started. -/
theorem running_before {event : Event κ} (hstep : s.Step event s') {id : ObjSlotId}
    {opType : OpType} {callbacks : List κ} (hrunning : s'.worker = .running id opType callbacks) :
    s.worker = .running id opType callbacks ∨
      event = .upgrade ∧ ∃ entry, s.worker = .took entry := by
  cases hstep with
  | dequeue => cases hrunning
  | gone => cases hrunning
  | ready => cases hrunning
  | start htook => exact .inr ⟨rfl, _, htook⟩
  | finish => cases hrunning
  | notify => cases hrunning
  | notified => cases hrunning
  | _ => exact .inl hrunning

end Manager

/-! ## State -/

/-- The fields of an `ObjectSlot` that do not change. -/
structure SlotSource where
  object : ℕ
  pageOffset : ℕ
  deriving DecidableEq, Repr

/-- A call of `fault_in_exclusive` or of `fault_out` that has returned. -/
structure ObjectCall (π : Type) where
  source : SlotSource
  opType : OpType
  outcome : Outcome
  /-- What was in the page of the call when it returned. -/
  content : π
  deriving DecidableEq, Repr

/-- The call made the page of the slot. -/
def ObjectCall.madePage {π : Type} (call : ObjectCall π) : Bool :=
  call.opType ≠ .flush ∧ call.outcome = .success

/-- A call of `enqueue_init` or of `enqueue_flush` with a callback. -/
structure Request where
  slot : ObjSlotId
  isFlush : Bool
  /-- How many slots had been at the address. -/
  birth : ℕ
  /-- How many calls for the slot had started. -/
  calls : ℕ
  resident : Bool
  deriving DecidableEq, Repr

/-- The object manager and what has happened to it. -/
structure History (π : Type) where
  manager : Manager ℕ
  /-- The requests, oldest first. Each is the name of its callback. -/
  requests : List Request
  sources : ObjSlotId → SlotSource
  /-- How many slots have been at an address. -/
  births : ObjSlotId → ℕ
  /-- The calls for a slot that have returned, in the order in which they started. -/
  calls : ObjSlotId → List (ObjectCall π)
  /-- The content with which the page of a slot was made. -/
  contents : ObjSlotId → Option π
  /-- What the worker read from its slot for the call of the object. -/
  read : SlotSource

/-- An event of the object manager with what it brings. -/
inductive HistoryEvent (π : Type)
  | newSlot (id : ObjSlotId) (fabric : CpuFabricId) (source : SlotSource)
  | dropSlot (id : ObjSlotId)
  | deallocSlot (id : ObjSlotId)
  /-- `enqueue_flush` or `enqueue_init`, with a callback or without one. -/
  | enqueue (t : ThreadId) (id : ObjSlotId) (isFlush : Bool) (notify : Bool)
  | lock (t : ThreadId)
  | dequeue
  | upgrade
  /-- The call of the object returns and leaves the page with this content. -/
  | finish (outcome : Outcome) (content : π)
  | notify
  | close
  deriving DecidableEq, Repr

variable {π : Type}

namespace History

/-- The start, with no slots. -/
def new (queueLimit : ℕ) : History π where
  manager := .new queueLimit
  requests := []
  sources := fun _ => ⟨0, 0⟩
  births := fun _ => 0
  calls := fun _ => []
  contents := fun _ => none
  read := ⟨0, 0⟩

/-! ## Steps -/

/-- The callback of the next request. -/
def callback (s : History π) (notify : Bool) : Option ℕ :=
  if notify then some s.requests.length else none

/-- What the manager does. -/
def managerEvent (s : History π) : HistoryEvent π → Event ℕ
  | .newSlot id fabric _ => .newSlot id fabric
  | .dropSlot id => .dropSlot id
  | .deallocSlot id => .deallocSlot id
  | .enqueue t id false notify => .enqueueInit t id (s.callback notify)
  | .enqueue t id true notify => .enqueueFlush t id (s.callback notify)
  | .lock t => .lock t
  | .dequeue => .dequeue
  | .upgrade => .upgrade
  | .finish outcome _ => .finish outcome
  | .notify => .notify
  | .close => .close

/-- How many calls for a slot have started. -/
def started (s : History π) (id : ObjSlotId) : ℕ :=
  (s.calls id).length + if s.manager.worker.hasArc id then 1 else 0

/-- A request of the slot that is there now. -/
def request (s : History π) (id : ObjSlotId) (isFlush : Bool) : Request where
  slot := id
  isFlush := isFlush
  birth := s.births id
  calls := s.started id
  resident := (s.manager.slots id).resident

/-- The call of the object that returns: it was made with what the worker had read. -/
def objectCall (s : History π) (opType : OpType) (outcome : Outcome) (content : π) :
    ObjectCall π where
  source := s.read
  opType := opType
  outcome := outcome
  content := content

/-- The record after an event that took the manager to `m`. -/
def record (s : History π) (m : Manager ℕ) : HistoryEvent π → History π
  | .newSlot id _ source =>
    if s.manager.slots id = .free then
      { s with
        manager := m
        sources := Function.update s.sources id source
        births := Function.update s.births id (s.births id + 1)
        calls := Function.update s.calls id []
        contents := Function.update s.contents id none }
    else { s with manager := m }
  | .enqueue t id isFlush true =>
    if s.manager.accepts t id then
      { s with manager := m, requests := s.requests ++ [s.request id isFlush] }
    else { s with manager := m }
  | .upgrade =>
    -- `slot.object` and `slot.page_offset` are read when the object is called
    match s.manager.worker, m.worker with
    | .took _, .running id _ _ => { s with manager := m, read := s.sources id }
    | _, _ => { s with manager := m }
  | .finish outcome content =>
    match s.manager.worker with
    | .running id opType _ =>
      { s with
        manager := m
        calls := Function.update s.calls id (s.calls id ++ [s.objectCall opType outcome content])
        contents :=
          if opType ≠ .flush ∧ outcome = .success then Function.update s.contents id (some content)
          else s.contents }
    | _ => { s with manager := m }
  | _ => { s with manager := m }

/-- One event. -/
def step (s : History π) (event : HistoryEvent π) : Except Failure (History π) := do
  return s.record (← s.manager.step (s.managerEvent event)) event

/-- A run from the start. -/
def run (queueLimit : ℕ) (events : List (HistoryEvent π)) : Except Failure (History π) :=
  events.foldlM step (new queueLimit)

variable {s s' : History π}

@[simp] theorem record_manager (m : Manager ℕ) (event : HistoryEvent π) :
    (s.record m event).manager = m := by
  unfold record
  repeat' split
  all_goals rfl

theorem eq_newSlot {event : HistoryEvent π} {id : ObjSlotId} {fabric : CpuFabricId}
    (hevent : s.managerEvent event = .newSlot id fabric) :
    ∃ fabric source, event = .newSlot id fabric source := by
  cases event with
  | newSlot id' fabric' source =>
    cases hevent
    exact ⟨_, _, rfl⟩
  | enqueue t id' isFlush notify => cases isFlush <;> cases hevent
  | _ => cases hevent

theorem eq_dropSlot {event : HistoryEvent π} {id : ObjSlotId}
    (hevent : s.managerEvent event = .dropSlot id) : event = .dropSlot id := by
  cases event with
  | dropSlot id' =>
    cases hevent
    rfl
  | enqueue t id' isFlush notify => cases isFlush <;> cases hevent
  | _ => cases hevent

theorem eq_enqueue {event : HistoryEvent π} {t : ThreadId} {id : ObjSlotId} {callback : Option ℕ}
    (hevent : s.managerEvent event = .enqueueInit t id callback ∨
      s.managerEvent event = .enqueueFlush t id callback) :
    ∃ isFlush notify, event = .enqueue t id isFlush notify := by
  cases event with
  | enqueue t' id' isFlush notify =>
    cases isFlush <;> rcases hevent with ⟨⟨⟩⟩ | ⟨⟨⟩⟩ <;> exact ⟨_, _, rfl⟩
  | _ => rcases hevent with ⟨⟨⟩⟩ | ⟨⟨⟩⟩

theorem eq_upgrade {event : HistoryEvent π} (hevent : s.managerEvent event = .upgrade) :
    event = .upgrade := by
  cases event with
  | upgrade => rfl
  | enqueue t id isFlush notify => cases isFlush <;> cases hevent
  | _ => cases hevent

theorem eq_finish {event : HistoryEvent π} {outcome : Outcome}
    (hevent : s.managerEvent event = .finish outcome) :
    ∃ content, event = .finish outcome content := by
  cases event with
  | finish outcome' content =>
    cases hevent
    exact ⟨content, rfl⟩
  | enqueue t id isFlush notify => cases isFlush <;> cases hevent
  | _ => cases hevent

theorem step_eq {event : HistoryEvent π} (hok : s.step event = .ok s') :
    ∃ m, s.manager.step (s.managerEvent event) = .ok m ∧ s' = s.record m event := by
  obtain ⟨m, hm, hok⟩ := bind_eq_ok.1 hok
  exact ⟨m, hm, (Except.ok.inj hok).symm⟩

/-- An event brings no callback and leaves the requests, or brings the next one and its request. -/
theorem requests_record (m : Manager ℕ) (event : HistoryEvent π) :
    (s.record m event).requests = s.requests ∧ s.manager.brought (s.managerEvent event) = [] ∨
    ∃ t id isFlush, event = .enqueue t id isFlush true ∧ s.manager.accepts t id = true ∧
      s.record m event = { s with manager := m, requests := s.requests ++ [s.request id isFlush] } ∧
      s.manager.brought (s.managerEvent event) = [s.requests.length] := by
  cases event with
  | newSlot id fabric source =>
    refine .inl ⟨?_, rfl⟩
    simp only [record]
    split_ifs <;> rfl
  | enqueue t id isFlush notify =>
    cases notify with
    | false =>
      refine .inl ⟨rfl, ?_⟩
      cases isFlush <;> simp [managerEvent, Manager.brought, callback]
    | true =>
      by_cases haccepts : s.manager.accepts t id = true
      · refine .inr ⟨t, id, isFlush, rfl, haccepts, if_pos haccepts, ?_⟩
        cases isFlush <;> simp [managerEvent, Manager.brought, callback, haccepts]
      · refine .inl ⟨?_, ?_⟩
        · simp only [record, if_neg haccepts]
        · cases isFlush <;> simp [managerEvent, Manager.brought, haccepts]
  | upgrade | finish =>
    refine .inl ⟨?_, rfl⟩
    simp only [record]
    split <;> rfl
  | _ => exact .inl ⟨rfl, rfl⟩

/-- An address that is free may get a new slot; all others keep theirs. -/
theorem births_record (m : Manager ℕ) (event : HistoryEvent π) (id : ObjSlotId) :
    (s.record m event).births id = s.births id ∧ (s.record m event).sources id = s.sources id ∧
      ((∃ fabric source, event = .newSlot id fabric source) → s.manager.slots id ≠ .free) ∨
    (∃ fabric source, event = .newSlot id fabric source) ∧ s.manager.slots id = .free ∧
      (s.record m event).births id = s.births id + 1 := by
  cases event with
  | newSlot id' fabric source =>
    by_cases hfree : s.manager.slots id' = .free
    · by_cases hid : id = id'
      · subst hid
        exact .inr ⟨⟨fabric, source, rfl⟩, hfree, by simp [record, hfree]⟩
      · refine .inl ⟨by simp [record, hfree, hid], by simp [record, hfree, hid], ?_⟩
        rintro ⟨_, _, ⟨⟩⟩
        exact absurd rfl hid
    · refine .inl ⟨by simp [record, hfree], by simp [record, hfree], ?_⟩
      rintro ⟨_, _, ⟨⟩⟩
      exact hfree
  | enqueue t id' isFlush notify =>
    cases notify with
    | false => exact .inl ⟨rfl, rfl, nofun⟩
    | true =>
      refine .inl ⟨?_, ?_, nofun⟩
      all_goals
        simp only [record]
        split_ifs <;> rfl
  | upgrade | finish =>
    refine .inl ⟨?_, ?_, nofun⟩
    all_goals
      simp only [record]
      split <;> rfl
  | _ => exact .inl ⟨rfl, rfl, nofun⟩

/-- The worker reads a slot only when it starts a call. -/
theorem read_record {m : Manager ℕ} {event : HistoryEvent π} {id : ObjSlotId} {opType : OpType}
    {callbacks : List ℕ} (hrunning : s.manager.worker = .running id opType callbacks) :
    (s.record m event).read = s.read := by
  cases event with
  | newSlot id' fabric source =>
    simp only [record]
    split_ifs <;> rfl
  | enqueue t id' isFlush notify =>
    cases notify with
    | false => rfl
    | true =>
      simp only [record]
      split_ifs <;> rfl
  | upgrade | finish => simp only [record, hrunning]
  | _ => rfl

/-- The calls for a slot stay, or start anew with a new slot, or one more has returned. -/
theorem calls_record (m : Manager ℕ) (event : HistoryEvent π) (id : ObjSlotId) :
    (s.record m event).calls id = s.calls id ∧ (s.record m event).contents id = s.contents id ∧
      ((∃ fabric source, event = .newSlot id fabric source) → s.manager.slots id ≠ .free) ∧
      ((∃ outcome content, event = .finish outcome content) →
        ∀ opType callbacks, s.manager.worker ≠ .running id opType callbacks) ∨
    (∃ fabric source, event = .newSlot id fabric source) ∧ s.manager.slots id = .free ∧
      (s.record m event).calls id = [] ∧ (s.record m event).contents id = none ∨
    ∃ outcome content opType callbacks, event = .finish outcome content ∧
      s.manager.worker = .running id opType callbacks ∧
      (s.record m event).calls id = s.calls id ++ [s.objectCall opType outcome content] ∧
      (s.record m event).contents id =
        if opType ≠ .flush ∧ outcome = .success then some content else s.contents id := by
  cases event with
  | newSlot id' fabric source =>
    by_cases hfree : s.manager.slots id' = .free
    · by_cases hid : id = id'
      · subst hid
        exact .inr (.inl ⟨⟨fabric, source, rfl⟩, hfree, by simp [record, hfree], by
          simp [record, hfree]⟩)
      · refine .inl ⟨by simp [record, hfree, hid], by simp [record, hfree, hid], ?_, nofun⟩
        rintro ⟨_, _, ⟨⟩⟩
        exact absurd rfl hid
    · refine .inl ⟨by simp [record, hfree], by simp [record, hfree], ?_, nofun⟩
      rintro ⟨_, _, ⟨⟩⟩
      exact hfree
  | enqueue t id' isFlush notify =>
    cases notify with
    | false => exact .inl ⟨rfl, rfl, nofun, nofun⟩
    | true =>
      refine .inl ⟨?_, ?_, nofun, nofun⟩
      all_goals
        simp only [record]
        split_ifs <;> rfl
  | finish outcome content =>
    simp only [record]
    split
    · rename_i id' opType callbacks hrunning
      by_cases hid : id = id'
      · subst hid
        refine .inr (.inr ⟨outcome, content, opType, callbacks, rfl, hrunning, by simp, ?_⟩)
        split_ifs <;> simp
      · refine .inl ⟨Function.update_of_ne hid _ _, ?_, nofun, ?_⟩
        · split_ifs
          · exact Function.update_of_ne hid _ _
          · rfl
        · intro _ opType' callbacks' hrunning'
          rw [hrunning] at hrunning'
          cases hrunning'
          exact hid rfl
    · rename_i hnot
      exact .inl ⟨rfl, rfl, nofun, fun _ opType callbacks => hnot id opType callbacks⟩
  | upgrade =>
    refine .inl ⟨?_, ?_, nofun, nofun⟩
    all_goals
      simp only [record]
      split <;> rfl
  | _ => exact .inl ⟨rfl, rfl, nofun, nofun⟩

/-! ## Invariant -/

/-- What the record says about the manager between any two events. -/
structure Inv (s : History π) : Prop where
  manager : s.manager.Inv
  running : s.manager.RunningOk
  once : ∀ c, s.manager.callbacks.count c = if c < s.requests.length then 1 else 0
  births : ∀ r ∈ s.requests, r.birth ≤ s.births r.slot
  sources : ∀ id, ∀ call ∈ s.calls id, call.source = s.sources id
  read : ∀ id opType callbacks, s.manager.worker = .running id opType callbacks →
    s.read = s.sources id
  pages : ∀ id, (s.manager.slots id).isLive = true →
    (s.manager.slots id).resident = (s.contents id).isSome ∧
      ((s.calls id).filter (·.madePage)).map (·.content) = (s.contents id).toList

theorem inv_new (queueLimit : ℕ) : (new queueLimit : History π).Inv where
  manager := Manager.inv_new queueLimit
  running := fun _ _ _ hrunning => by cases hrunning
  once := fun _ => rfl
  births := fun _ hr => by cases hr
  sources := fun _ _ hcall => by cases hcall
  read := fun _ _ _ hrunning => by cases hrunning
  pages := fun _ hlive => by cases hlive

theorem Inv.once_step (h : s.Inv) {event : HistoryEvent π} {m : Manager ℕ}
    (hm : s.manager.step (s.managerEvent event) = .ok m) (c : ℕ) :
    m.callbacks.count c = if c < (s.record m event).requests.length then 1 else 0 := by
  have hcount := Manager.callbacks_step c h.manager.indexed hm
  rw [h.once c] at hcount
  rcases requests_record m event with ⟨hrequests, hbrought⟩ | ⟨t, id, isFlush, -, -,
    hrecord, hbrought⟩
  · rw [hcount, hrequests, hbrought]
    rfl
  · rw [hcount, hrecord, hbrought, List.length_append, List.length_singleton, List.count_singleton]
    by_cases hc : c = s.requests.length
    · simp [hc]
    · have hne : ¬ s.requests.length = c := fun heq => hc heq.symm
      simp only [beq_iff_eq, hne, if_false, Nat.add_zero, Nat.lt_succ_iff_lt_or_eq, hc, or_false]

theorem Inv.births_step (h : s.Inv) (m : Manager ℕ) (event : HistoryEvent π) :
    ∀ r ∈ (s.record m event).requests, r.birth ≤ (s.record m event).births r.slot := by
  have hgrows : ∀ id, s.births id ≤ (s.record m event).births id := by
    intro id
    rcases births_record m event id with ⟨hsame, -, -⟩ | ⟨-, -, hsucc⟩
    · exact Nat.le_of_eq hsame.symm
    · rw [hsucc]
      exact Nat.le_succ _
  intro r hr
  rcases requests_record m event with ⟨hrequests, -⟩ | ⟨t, id, isFlush, -, -, hrecord, -⟩
  · rw [hrequests] at hr
    exact Nat.le_trans (h.births r hr) (hgrows r.slot)
  · rw [hrecord, List.mem_append, List.mem_singleton] at hr
    rcases hr with hold | rfl
    · exact Nat.le_trans (h.births r hold) (hgrows r.slot)
    · exact hgrows id

theorem Inv.sources_step (h : s.Inv) (m : Manager ℕ) (event : HistoryEvent π) (id : ObjSlotId) :
    ∀ call ∈ (s.record m event).calls id, call.source = (s.record m event).sources id := by
  intro call hcall
  rcases calls_record m event id with ⟨hcalls, -, hnot, -⟩ | ⟨-, -, hcalls, -⟩ |
    ⟨outcome, content, opType, callbacks, rfl, hrunning, hcalls, -⟩
  · rw [hcalls] at hcall
    rcases births_record m event id with ⟨-, hsources, -⟩ | ⟨hnew, hfree, -⟩
    · rw [hsources]
      exact h.sources id call hcall
    · exact absurd hfree (hnot hnew)
  · rw [hcalls] at hcall
    cases hcall
  · rcases births_record m (.finish outcome content) id with ⟨-, hsources, -⟩ | ⟨⟨_, _, ⟨⟩⟩, -⟩
    rw [hsources]
    rw [hcalls, List.mem_append, List.mem_singleton] at hcall
    rcases hcall with hold | rfl
    · exact h.sources id call hold
    · exact h.read id opType callbacks hrunning

/-- The slot that the worker read is the one whose object it calls, as long as the call runs. -/
theorem Inv.read_step (h : s.Inv) {event : HistoryEvent π} {m : Manager ℕ}
    (hm : s.manager.step (s.managerEvent event) = .ok m) {id : ObjSlotId} {opType : OpType}
    {callbacks : List ℕ} (hrunning : m.worker = .running id opType callbacks) :
    (s.record m event).read = (s.record m event).sources id := by
  have hstep := Manager.step_cases h.manager.indexed hm
  rcases Manager.running_before hstep hrunning with hwas | ⟨hupgrade, entry, htook⟩
  · -- the slot is not new: it is there while its object runs
    have hlive := (h.running id opType callbacks hwas).1
    rw [read_record hwas]
    rcases births_record m event id with ⟨-, hsources, -⟩ | ⟨-, hfree, -⟩
    · rw [hsources]
      exact h.read id opType callbacks hwas
    · exact absurd hfree (SlotMemory.ne_free hlive)
  · obtain rfl := eq_upgrade hupgrade
    simp only [record, htook, hrunning]

/-- The memory of a slot that is neither new nor just made. -/
theorem slots_eq {event : HistoryEvent π} {m : Manager ℕ} (h : s.Inv)
    (hm : s.manager.step (s.managerEvent event) = .ok m) {id : ObjSlotId}
    (hlive : (m.slots id).isLive = true)
    (hnew : (∃ fabric source, event = .newSlot id fabric source) → s.manager.slots id ≠ .free)
    (hfinish : (∃ outcome content, event = .finish outcome content) →
      ∀ opType callbacks, s.manager.worker ≠ .running id opType callbacks) :
    m.slots id = s.manager.slots id := by
  have hstep := Manager.step_cases h.manager.indexed hm
  by_cases hcase : (∃ fabric source, event = .newSlot id fabric source) ∨
      ∃ outcome content, event = .finish outcome content
  · rcases hcase with ⟨fabric, source, rfl⟩ | ⟨outcome, content, rfl⟩
    · simp only [managerEvent, Manager.step, if_neg (hnew ⟨fabric, source, rfl⟩)] at hm
      rw [Except.ok.inj hm]
    · simp only [managerEvent, Manager.step] at hm
      split at hm
      · rename_i id' opType callbacks hrunning
        have hid : id ≠ id' := by
          rintro rfl
          exact hfinish ⟨outcome, content, rfl⟩ opType callbacks hrunning
        rw [← Except.ok.inj hm]
        simp only [Manager.finishTask]
        split_ifs
        · exact Function.update_of_ne hid _ _
        · rfl
      · rw [Except.ok.inj hm]
  · rw [not_or] at hcase
    refine Manager.slots_eq_of_step hstep hlive (fun fabric hevent => ?_) fun outcome hevent => ?_
    · exact hcase.1 (eq_newSlot hevent)
    · exact hcase.2 ⟨outcome, eq_finish hevent⟩

theorem Inv.pages_step (h : s.Inv) {event : HistoryEvent π} {m : Manager ℕ}
    (hm : s.manager.step (s.managerEvent event) = .ok m) (id : ObjSlotId)
    (hlive : (m.slots id).isLive = true) :
    (m.slots id).resident = ((s.record m event).contents id).isSome ∧
      (((s.record m event).calls id).filter (·.madePage)).map (·.content) =
        ((s.record m event).contents id).toList := by
  rcases calls_record m event id with ⟨hcalls, hcontents, hnew, hfinish⟩ |
    ⟨⟨fabric, source, rfl⟩, hfree, hcalls, hcontents⟩ |
    ⟨outcome, content, opType, callbacks, rfl, hrunning, hcalls, hcontents⟩
  · have hslot := slots_eq h hm hlive hnew hfinish
    rw [hcalls, hcontents, hslot]
    rw [hslot] at hlive
    exact h.pages id hlive
  · -- a new slot has no page
    simp only [managerEvent, Manager.step, if_pos hfree] at hm
    rw [hcalls, hcontents, ← Except.ok.inj hm]
    simp [SlotMemory.resident]
  · obtain ⟨hwas, hop⟩ := h.running id opType callbacks hrunning
    obtain ⟨hresident, hmade⟩ := h.pages id hwas
    simp only [managerEvent, Manager.step, hrunning] at hm
    obtain rfl := Except.ok.inj hm
    rw [hcalls, hcontents, List.filter_append, List.map_append, hmade]
    by_cases hsuccess : opType ≠ .flush ∧ outcome = .success
    · -- the page of the slot was not there before
      have hnone : s.contents id = none :=
        Option.not_isSome_iff_eq_none.1 fun hsome => hsuccess.1 (hop.2 (hresident.trans hsome))
      have hslot : ((s.manager.slots id).withPage).resident = true :=
        SlotMemory.resident_withPage hwas
      rw [if_pos hsuccess, hnone]
      simp [Manager.finishTask, hsuccess, hslot, objectCall, ObjectCall.madePage]
    · rw [if_neg hsuccess]
      simp [Manager.finishTask, hsuccess, hresident, objectCall, ObjectCall.madePage]

theorem Inv.step (h : s.Inv) {event : HistoryEvent π} (hok : s.step event = .ok s') : s'.Inv := by
  obtain ⟨m, hm, rfl⟩ := step_eq hok
  refine ⟨?_, ?_, ?_, h.births_step m event, h.sources_step m event, ?_, ?_⟩
  · rw [record_manager]
    exact h.manager.step (Manager.step_cases h.manager.indexed hm)
  · rw [record_manager]
    exact h.running.step h.manager.indexed hm
  · rw [record_manager]
    exact h.once_step hm
  · rw [record_manager]
    exact fun _ _ _ => h.read_step hm
  · rw [record_manager]
    exact h.pages_step hm

/-! ## Slots that are kept -/

/-- The slot of the request is still there. -/
def Kept (s : History π) (r : Request) : Prop :=
  (s.manager.slots r.slot).isLive = true ∧ s.births r.slot = r.birth

/-- A slot that is kept after an event was kept before it. -/
theorem Inv.kept_before (h : s.Inv) {event : HistoryEvent π} {m : Manager ℕ}
    (hm : s.manager.step (s.managerEvent event) = .ok m) {r : Request} (hr : r ∈ s.requests)
    (hkept : (s.record m event).Kept r) :
    s.Kept r ∧ ¬ ((∃ fabric source, event = .newSlot r.slot fabric source) ∧
      s.manager.slots r.slot = .free) := by
  obtain ⟨hlive, hbirth⟩ := hkept
  rw [record_manager] at hlive
  rcases births_record m event r.slot with ⟨hsame, -, hnew⟩ | ⟨-, -, hsucc⟩
  · refine ⟨⟨?_, hsame.symm.trans hbirth⟩, fun hfree => hnew hfree.1 hfree.2⟩
    rcases Manager.isLive_of_step (Manager.step_cases h.manager.indexed hm) hlive with
      hwas | ⟨hfree, fabric, hevent⟩
    · exact hwas
    · exact absurd hfree (hnew (eq_newSlot hevent))
  · -- another slot has taken the address
    have := h.births r hr
    omega

/-- A slot that is not dropped stays, and keeps its page. -/
theorem Inv.live_after (h : s.Inv) {event : HistoryEvent π} (hok : s.step event = .ok s')
    {id : ObjSlotId} (hlive : (s.manager.slots id).isLive = true) (hdrop : event ≠ .dropSlot id) :
    (s'.manager.slots id).isLive = true ∧
      ((s.manager.slots id).resident = true → (s'.manager.slots id).resident = true) := by
  obtain ⟨m, hm, rfl⟩ := step_eq hok
  rw [record_manager]
  exact Manager.slots_step (Manager.step_cases h.manager.indexed hm) hlive fun hevent =>
    hdrop (eq_dropSlot hevent)

theorem Inv.kept_after (h : s.Inv) {event : HistoryEvent π} (hok : s.step event = .ok s')
    {r : Request}
    (hkept : s.Kept r) (hdrop : event ≠ .dropSlot r.slot) : s'.Kept r := by
  refine ⟨(h.live_after hok hkept.1 hdrop).1, ?_⟩
  obtain ⟨m, hm, rfl⟩ := step_eq hok
  rcases births_record m event r.slot with ⟨hsame, -, -⟩ | ⟨-, hfree, -⟩
  · exact hsame.trans hkept.2
  · exact absurd hfree (SlotMemory.ne_free hkept.1)

theorem requests_after {event : HistoryEvent π} (hok : s.step event = .ok s') :
    s.requests <+: s'.requests := by
  obtain ⟨m, hm, rfl⟩ := step_eq hok
  rcases requests_record m event with ⟨hsame, -⟩ | ⟨t, id, isFlush, -, -, hrecord, -⟩
  · exact hsame.symm ▸ List.prefix_refl _
  · rw [hrecord]
    exact List.prefix_append _ _

end History

end RapidArm.Objects
