import RapidArm.Objects.Manager

/-!
# Requests on their way

A request to flush a slot goes from its caller into the queue, to the worker and into the
call of the object; the callback that came with it goes along and ends by being called or
dropped. Two views of this, each with what one event does:

* `FlushPending.step`: a pending flush of a slot that is still there stays pending until
  its object is called.
* `At.step`: a callback stays where it is or moves one place on.
-/

namespace RapidArm.Objects

open RapidArm.Lib

variable {κ : Type}

theorem Queue.merge_flush_left {queued opType : OpType} {resident : Bool}
    (h : Queue.merge .flush queued resident = .ok opType) : opType = .flush := by
  cases queued with
  | init fabric =>
    simp only [merge] at h
    split_ifs at h
    exact (Except.ok.inj h).symm
  | flush => exact (Except.ok.inj h).symm

theorem Queue.merge_flush_right {enqueued opType : OpType} {resident : Bool}
    (h : Queue.merge enqueued .flush resident = .ok opType) : opType = .flush := by
  cases enqueued with
  | init fabric => cases h
  | flush => exact (Except.ok.inj h).symm

theorem SlotMemory.isLive_eq_false {m : SlotMemory}
    (h : ∀ fabric resident, m ≠ .live fabric resident) : m.isLive = false := by
  rw [← Bool.not_eq_true, SlotMemory.isLive_iff]
  rintro ⟨fabric, resident, hm⟩
  exact h fabric resident hm

namespace Manager

/-! ## Flushes -/

/-- A flush of the slot is called for, queued or taken by the worker. -/
def FlushPending (s : Manager κ) (id : ObjSlotId) : Prop :=
  (∃ t e, s.callers.lookup t = some e ∧ e.slot = id ∧ e.opType = .flush) ∨
  (∃ entry ∈ s.queue.queue, entry.slot = id ∧ entry.opType = .flush) ∨
  ∃ entry, s.worker = .took entry ∧ entry.slot = id ∧ entry.opType = .flush

/-- The object of the slot writes its page back. -/
def FlushRunning (s : Manager κ) (id : ObjSlotId) : Prop :=
  ∃ callbacks, s.worker = .running id .flush callbacks

variable {s s' : Manager κ} {event : Event κ}

theorem lookup_insert_of_new {callers : AList fun _ : ThreadId => EnqueueEntry κ} {t t' : ThreadId}
    {e e' : EnqueueEntry κ} (hnone : callers.lookup t = none)
    (hcaller : callers.lookup t' = some e') :
    (callers.insert t e).lookup t' = some e' := by
  rw [AList.lookup_insert_ne, hcaller]
  rintro rfl
  rw [hnone] at hcaller
  cases hcaller

/-- An entry of the queue after the merge of a request: the same, or with a new operation. -/
theorem exists_mem_modify_join {queue : List (QueueEntry κ)} {i : ℕ} {merged : QueueEntry κ}
    (opType : OpType) (callback : Option κ) (hmerged : queue[i]? = some merged)
    {entry : QueueEntry κ} (hentry : entry ∈ queue) :
    entry ∈ queue.modify i (·.join opType callback) ∨
      entry = merged ∧ merged.join opType callback ∈ queue.modify i (·.join opType callback) := by
  obtain ⟨j, hj⟩ := List.mem_iff_getElem?.1 hentry
  have hmodify : (queue.modify i (·.join opType callback))[j]? =
      if i = j then some (entry.join opType callback) else some entry := by
    simp only [List.getElem?_modify, hj]
    split_ifs <;> rfl
  by_cases hij : i = j
  · subst hij
    obtain rfl := Option.some.inj (hj.symm.trans hmerged)
    rw [if_pos rfl] at hmodify
    exact .inr ⟨rfl, List.mem_of_getElem? hmodify⟩
  · rw [if_neg hij] at hmodify
    exact .inl (List.mem_of_getElem? hmodify)

/-- The request of a caller waits for its turn, or is queued. -/
theorem flushPending_of_caller (hstep : s.Step event s') {t : ThreadId} {e : EnqueueEntry κ}
    (hcaller : s.callers.lookup t = some e) (hop : e.opType = .flush) : s'.FlushPending e.slot := by
  -- the caller of another event is another one
  have herase : ∀ {t' e'}, s.callers.lookup t' = some e' → (t' = t → e' = e) := by
    rintro t' e' hcaller' rfl
    exact Option.some.inj (hcaller'.symm.trans hcaller)
  cases hstep with
  | enqueueInit hlive hnone => exact .inl ⟨t, e, lookup_insert_of_new hnone hcaller, rfl, hop⟩
  | enqueueFlush hlive hnone => exact .inl ⟨t, e, lookup_insert_of_new hnone hcaller, rfl, hop⟩
  | @unnecessary t' e' hcaller' hinit hresident =>
    by_cases ht : t' = t
    · exact absurd (herase hcaller' ht ▸ hop) hinit
    · exact .inl ⟨t, e, (AList.lookup_erase_ne (Ne.symm ht)).trans hcaller, rfl, hop⟩
  | @joined t' e' i entry opType q hcaller' hentry hslot hmerge hqueue hbase hindexed =>
    by_cases ht : t' = t
    · obtain rfl := herase hcaller' ht
      rw [hop] at hmerge
      refine .inr (.inl ⟨entry.join opType e'.callback, ?_, hslot, Queue.merge_flush_left hmerge⟩)
      show entry.join opType e'.callback ∈ q.queue
      rw [hqueue]
      refine List.mem_of_getElem? (i := i) ?_
      simp only [List.getElem?_modify, hentry, if_true]
      rfl
    · exact .inl ⟨t, e, (AList.lookup_erase_ne (Ne.symm ht)).trans hcaller, rfl, hop⟩
  | @pushed t' e' q hcaller' hroom hqueue hbase hindexed =>
    by_cases ht : t' = t
    · obtain rfl := herase hcaller' ht
      refine .inr (.inl ⟨⟨e'.slot, e'.callback.toList, e'.opType⟩, ?_, rfl, hop⟩)
      show (⟨e'.slot, e'.callback.toList, e'.opType⟩ : QueueEntry κ) ∈ q.queue
      rw [hqueue]
      exact List.mem_append_right _ (List.mem_singleton_self _)
    · exact .inl ⟨t, e, (AList.lookup_erase_ne (Ne.symm ht)).trans hcaller, rfl, hop⟩
  | _ => exact .inl ⟨t, e, hcaller, rfl, hop⟩

/-- A queued flush stays a flush until the worker takes it. -/
theorem flushPending_of_queued (hstep : s.Step event s') {entry : QueueEntry κ}
    (hentry : entry ∈ s.queue.queue) (hop : entry.opType = .flush) :
    s'.FlushPending entry.slot := by
  cases hstep with
  | @joined t e i merged opType q hcaller hmerged hslot hmerge hqueue hbase hindexed =>
    have hmem : ∀ entry', entry' ∈ s.queue.queue.modify i (·.join opType e.callback) →
        entry' ∈ q.queue :=
      fun entry' => by rw [hqueue]; exact id
    rcases exists_mem_modify_join opType e.callback hmerged hentry with
      hsame | ⟨rfl, hjoined⟩
    · exact .inr (.inl ⟨entry, hmem _ hsame, rfl, hop⟩)
    · rw [hop] at hmerge
      exact .inr (.inl ⟨_, hmem _ hjoined, rfl, Queue.merge_flush_right hmerge⟩)
  | @pushed t e q hcaller hroom hqueue hbase hindexed =>
    refine .inr (.inl ⟨entry, ?_, rfl, hop⟩)
    show entry ∈ q.queue
    rw [hqueue]
    exact List.mem_append_left _ hentry
  | @dequeue first q hidle hqueue hbase hindexed =>
    rw [hqueue] at hentry
    rcases List.mem_cons.1 hentry with rfl | hrest
    · exact .inr (.inr ⟨entry, rfl, rfl, hop⟩)
    · exact .inr (.inl ⟨entry, hrest, rfl, hop⟩)
  | _ => exact .inr (.inl ⟨entry, hentry, rfl, hop⟩)

/-- A flush that the worker has taken is started, if its slot is still there. -/
theorem flushPending_of_took (hstep : s.Step event s') {entry : QueueEntry κ}
    (htook : s.worker = .took entry) (hop : entry.opType = .flush) {fabric : CpuFabricId}
    {resident : Bool} (hlive : s.slots entry.slot = .live fabric resident) :
    s'.FlushPending entry.slot ∨ event = .upgrade ∧ s'.FlushRunning entry.slot := by
  have hworker : ∀ {worker : Worker κ}, s.worker = worker → worker = .took entry :=
    fun hw => hw.symm.trans htook
  cases hstep with
  | dequeue hidle => cases hworker hidle
  | gone htook' hgone =>
    cases hworker htook'
    exact absurd hlive (hgone fabric resident)
  | ready htook' hinit =>
    cases hworker htook'
    exact absurd hop hinit
  | start htook' =>
    cases hworker htook'
    refine .inr ⟨rfl, entry.callbacks, ?_⟩
    show Worker.running entry.slot entry.opType entry.callbacks = _
    rw [hop]
  | finish outcome hrunning => cases hworker hrunning
  | notify hnotifying => cases hworker hnotifying
  | notified hnotifying => cases hworker hnotifying
  | _ => exact .inl (.inr (.inr ⟨entry, htook, rfl, hop⟩))

theorem FlushPending.step (hstep : s.Step event s') {id : ObjSlotId} {fabric : CpuFabricId}
    {resident : Bool} (hlive : s.slots id = .live fabric resident) (h : s.FlushPending id) :
    s'.FlushPending id ∨
      event = .upgrade ∧ (∃ entry, s.worker = .took entry ∧ entry.slot = id) ∧
        s'.FlushRunning id := by
  rcases h with ⟨t, e, hcaller, rfl, hop⟩ | ⟨entry, hentry, rfl, hop⟩ | ⟨entry, htook, rfl, hop⟩
  · exact .inl (flushPending_of_caller hstep hcaller hop)
  · exact .inl (flushPending_of_queued hstep hentry hop)
  · rcases flushPending_of_took hstep htook hop hlive with hpending | ⟨hevent, hrunning⟩
    · exact .inl hpending
    · exact .inr ⟨hevent, ⟨entry, htook, rfl⟩, hrunning⟩

/-- A flush that has started runs until its object returns. -/
theorem FlushRunning.step (hstep : s.Step event s') {id : ObjSlotId} (h : s.FlushRunning id) :
    s'.FlushRunning id ∨ ∃ outcome, event = .finish outcome := by
  obtain ⟨callbacks, hrunning⟩ := h
  have hworker : ∀ {worker : Worker κ}, s.worker = worker → worker = .running id .flush callbacks :=
    fun hw => hw.symm.trans hrunning
  cases hstep with
  | dequeue hidle => cases hworker hidle
  | gone htook => cases hworker htook
  | ready htook => cases hworker htook
  | start htook => cases hworker htook
  | finish outcome => exact .inr ⟨outcome, rfl⟩
  | notify hnotifying => cases hworker hnotifying
  | notified hnotifying => cases hworker hnotifying
  | _ => exact .inl ⟨callbacks, hrunning⟩

/-! ## Slots and callers -/

/-- A slot that is not dropped stays, and keeps its page. -/
theorem slots_step (hstep : s.Step event s') {id : ObjSlotId} (hlive : (s.slots id).isLive = true)
    (hdrop : event ≠ .dropSlot id) :
    (s'.slots id).isLive = true ∧
      ((s.slots id).resident = true → (s'.slots id).resident = true) := by
  -- another slot changes
  have hother : ∀ {id' m}, id' ≠ id → (Function.update s.slots id' m id).isLive = true ∧
      ((s.slots id).resident = true → (Function.update s.slots id' m id).resident = true) := by
    intro id' m hid
    rw [Function.update_of_ne (Ne.symm hid)]
    exact ⟨hlive, fun hresident => hresident⟩
  cases hstep with
  | newSlot hfree =>
    refine hother ?_
    rintro rfl
    exact SlotMemory.ne_free hlive hfree
  | dropSlot =>
    refine hother ?_
    rintro rfl
    exact hdrop rfl
  | deallocSlot hdead =>
    refine hother ?_
    rintro rfl
    exact SlotMemory.ne_dead hlive hdead
  | @finish id' opType callbacks outcome hrunning =>
    unfold finishTask
    split_ifs
    · by_cases hid : id' = id
      · subst hid
        show (Function.update s.slots id' (s.slots id').withPage id').isLive = true ∧
          ((s.slots id').resident = true →
            (Function.update s.slots id' (s.slots id').withPage id').resident = true)
        rw [Function.update_self, SlotMemory.isLive_withPage]
        exact ⟨hlive, fun _ => SlotMemory.resident_withPage hlive⟩
      · exact hother hid
    · exact ⟨hlive, fun hresident => hresident⟩
  | _ => exact ⟨hlive, fun hresident => hresident⟩

/-- A slot that is there was there before, or is new. -/
theorem isLive_of_step (hstep : s.Step event s') {id : ObjSlotId}
    (hlive : (s'.slots id).isLive = true) :
    (s.slots id).isLive = true ∨ s.slots id = .free ∧ ∃ fabric, event = .newSlot id fabric := by
  cases hstep with
  | @newSlot id' fabric hfree =>
    by_cases hid : id' = id
    · subst hid
      exact .inr ⟨hfree, fabric, rfl⟩
    · exact .inl (by simpa [Function.update_of_ne (Ne.symm hid)] using hlive)
  | @dropSlot id' fabric resident hwas harc =>
    by_cases hid : id' = id
    · subst hid
      simp [SlotMemory.isLive] at hlive
    · exact .inl (by simpa [Function.update_of_ne (Ne.symm hid)] using hlive)
  | @deallocSlot id' hdead hweak =>
    by_cases hid : id' = id
    · subst hid
      simp [SlotMemory.isLive] at hlive
    · exact .inl (by simpa [Function.update_of_ne (Ne.symm hid)] using hlive)
  | @finish id' opType callbacks outcome hrunning =>
    unfold finishTask at hlive
    split_ifs at hlive
    · by_cases hid : id' = id
      · subst hid
        change (Function.update s.slots id' (s.slots id').withPage id').isLive = true at hlive
        rw [Function.update_self, SlotMemory.isLive_withPage] at hlive
        exact .inl hlive
      · exact .inl (by simpa [Function.update_of_ne (Ne.symm hid)] using hlive)
    · exact .inl hlive
  | _ => exact .inl hlive

/-- A page that is there stays with its slot. -/
theorem resident_of_step (hstep : s.Step event s') {id : ObjSlotId}
    (hlive : (s'.slots id).isLive = true)
    (hresident : (s.slots id).resident = true) : (s'.slots id).resident = true := by
  by_cases hdrop : event = .dropSlot id
  · subst hdrop
    cases hstep with
    | nothing => exact hresident
    | dropSlot => simp [SlotMemory.isLive] at hlive
  · exact (slots_step hstep (SlotMemory.isLive_of_resident hresident) hdrop).2 hresident

/-- A flush of a page that is there is called for. -/
theorem enqueueFlush_eq {id : ObjSlotId} (hresident : (s.slots id).resident = true) {t : ThreadId}
    (hnone : s.callers.lookup t = none) (callback : Option κ) :
    s.step (.enqueueFlush t id callback) =
      .ok { s with callers := s.callers.insert t ⟨id, .flush, callback⟩ } := by
  obtain ⟨fabric, resident, hslot⟩ :=
    SlotMemory.isLive_iff.1 (SlotMemory.isLive_of_resident hresident)
  rw [hslot] at hresident
  obtain rfl : resident = true := hresident
  simp [step, hslot, hnone, call, SlotMemory.resident]

/-- A caller that is left was there before. -/
theorem lookup_of_erase {callers : AList fun _ : ThreadId => EnqueueEntry κ} {t t' : ThreadId}
    {e : EnqueueEntry κ} (hleft : (callers.erase t').lookup t = some e) :
    callers.lookup t = some e := by
  rw [lookup_erase_if] at hleft
  split_ifs at hleft
  exact hleft

/-- A caller after an event was there before, or has just called. -/
theorem callers_step (hstep : s.Step event s') {t : ThreadId} {e : EnqueueEntry κ}
    (hcaller : s'.callers.lookup t = some e) :
    s.callers.lookup t = some e ∨
    (∃ id callback, event = .enqueueInit t id callback ∧ e.opType ≠ .flush) ∨
    ∃ id callback, event = .enqueueFlush t id callback := by
  cases hstep with
  | @enqueueInit t' id callback fabric resident hlive hnone =>
    by_cases ht : t = t'
    · subst ht
      obtain rfl := Option.some.inj ((AList.lookup_insert _).symm.trans hcaller)
      exact .inr (.inl ⟨id, callback, rfl, nofun⟩)
    · exact .inl ((AList.lookup_insert_ne ht).symm.trans hcaller)
  | @enqueueFlush t' id callback fabric hlive hnone =>
    by_cases ht : t = t'
    · subst ht
      exact .inr (.inr ⟨id, callback, rfl⟩)
    · exact .inl ((AList.lookup_insert_ne ht).symm.trans hcaller)
  | unnecessary => exact .inl (lookup_of_erase hcaller)
  | joined => exact .inl (lookup_of_erase hcaller)
  | pushed => exact .inl (lookup_of_erase hcaller)
  | _ => exact .inl hcaller

/-! ## Callbacks -/

/-- Where a callback can be. -/
inductive Place
  | calling (id : ObjSlotId) (opType : OpType)
  | queued (id : ObjSlotId) (opType : OpType)
  | taken (id : ObjSlotId) (opType : OpType)
  | running (id : ObjSlotId) (opType : OpType)
  | notifying (id : ObjSlotId) (success : Bool)
  | ended (how : CallbackEnd)

/-- The callback is there. -/
inductive At (s : Manager κ) (c : κ) : Place → Prop
  | calling {t : ThreadId} {e : EnqueueEntry κ} (hcaller : s.callers.lookup t = some e)
    (hc : e.callback = some c) : At s c (.calling e.slot e.opType)
  | queued {entry : QueueEntry κ} (hentry : entry ∈ s.queue.queue) (hc : c ∈ entry.callbacks) :
    At s c (.queued entry.slot entry.opType)
  | taken {entry : QueueEntry κ} (htook : s.worker = .took entry) (hc : c ∈ entry.callbacks) :
    At s c (.taken entry.slot entry.opType)
  | running {id : ObjSlotId} {opType : OpType} {callbacks : List κ}
    (hrunning : s.worker = .running id opType callbacks) (hc : c ∈ callbacks) :
    At s c (.running id opType)
  | notifying {id : ObjSlotId} {callbacks : List κ} {success : Bool}
    (hnotifying : s.worker = .notifying id callbacks success) (hc : c ∈ callbacks) :
    At s c (.notifying id success)
  | ended {how : CallbackEnd} (hc : (c, how) ∈ s.ended) : At s c (.ended how)

/-- How a callback moves on with an event. A flush stays a flush. -/
inductive Moves : Event κ → Place → Place → Prop
  | stays (event : Event κ) (place : Place) : Moves event place place
  | enqueued (t : ThreadId) {id : ObjSlotId} {opType opType' : OpType}
    (hop : opType = .flush → opType' = .flush) :
    Moves (.lock t) (.calling id opType) (.queued id opType')
  | merged (t : ThreadId) {id : ObjSlotId} {opType opType' : OpType}
    (hop : opType = .flush → opType' = .flush) :
    Moves (.lock t) (.queued id opType) (.queued id opType')
  | unnecessary (t : ThreadId) {id : ObjSlotId} {opType : OpType} (hinit : opType ≠ .flush) :
    Moves (.lock t) (.calling id opType) (.ended .succeeded)
  | taken (id : ObjSlotId) (opType : OpType) : Moves .dequeue (.queued id opType) (.taken id opType)
  | gone (id : ObjSlotId) (opType : OpType) : Moves .upgrade (.taken id opType) (.ended .dropped)
  | ready {id : ObjSlotId} {opType : OpType} (hinit : opType ≠ .flush) :
    Moves .upgrade (.taken id opType) (.notifying id true)
  | started (id : ObjSlotId) (opType : OpType) :
    Moves .upgrade (.taken id opType) (.running id opType)
  | finished (id : ObjSlotId) (opType : OpType) (outcome : Outcome) :
    Moves (.finish outcome) (.running id opType) (.notifying id (outcome = .success))
  | notified (id : ObjSlotId) (success : Bool) :
    Moves .notify (.notifying id success) (.ended (if success then .succeeded else .failed))

/-- The callback that a call brings, with its place. -/
inductive Brings (s : Manager κ) : Event κ → κ → Place → Prop
  | init {t : ThreadId} {id : ObjSlotId} {c : κ} (fabric : CpuFabricId) :
    Brings s (.enqueueInit t id (some c)) c (.calling id (.init fabric))
  | flush {t : ThreadId} {id : ObjSlotId} {c : κ} :
    Brings s (.enqueueFlush t id (some c)) c (.calling id .flush)
  | skipped {t : ThreadId} {id : ObjSlotId} {c : κ} (hresident : (s.slots id).resident = false) :
    Brings s (.enqueueFlush t id (some c)) c (.ended .succeeded)

/-- What the manager finds about the slot of a callback that moves on. -/
def Grounds (s : Manager κ) : Place → Place → Prop
  | .calling id _, .ended _ => (s.slots id).resident = true
  | .taken id _, .ended _ => (s.slots id).isLive = false
  | .taken id _, .notifying _ _ => (s.slots id).resident = true
  | .taken id opType, .running _ _ => opType = .flush ↔ (s.slots id).resident = true
  | _, _ => True

theorem at_calling (hstep : s.Step event s') {c : κ} {t : ThreadId} {e : EnqueueEntry κ}
    (hcaller : s'.callers.lookup t = some e) (hc : e.callback = some c) :
    s.At c (.calling e.slot e.opType) ∨ s.Brings event c (.calling e.slot e.opType) := by
  cases hstep with
  | @enqueueInit t' id callback fabric resident hlive hnone =>
    by_cases ht : t = t'
    · subst ht
      obtain rfl := Option.some.inj ((AList.lookup_insert _).symm.trans hcaller)
      obtain rfl : callback = some c := hc
      exact .inr (.init fabric)
    · exact .inl (.calling ((AList.lookup_insert_ne ht).symm.trans hcaller) hc)
  | @enqueueFlush t' id callback fabric hlive hnone =>
    by_cases ht : t = t'
    · subst ht
      obtain rfl := Option.some.inj ((AList.lookup_insert _).symm.trans hcaller)
      obtain rfl : callback = some c := hc
      exact .inr .flush
    · exact .inl (.calling ((AList.lookup_insert_ne ht).symm.trans hcaller) hc)
  | unnecessary => exact .inl (.calling (lookup_of_erase hcaller) hc)
  | joined => exact .inl (.calling (lookup_of_erase hcaller) hc)
  | pushed => exact .inl (.calling (lookup_of_erase hcaller) hc)
  | _ => exact .inl (.calling hcaller hc)

theorem at_queued (hstep : s.Step event s') {c : κ} {entry : QueueEntry κ}
    (hentry : entry ∈ s'.queue.queue) (hc : c ∈ entry.callbacks) :
    ∃ place, s.At c place ∧ Moves event place (.queued entry.slot entry.opType) ∧
      s.Grounds place (.queued entry.slot entry.opType) := by
  cases hstep with
  | @joined t e i merged opType q hcaller hmerged hslot hmerge hqueue hbase hindexed =>
    change entry ∈ q.queue at hentry
    rw [hqueue] at hentry
    rcases mem_modify_join hmerged hentry with hold | rfl
    · exact ⟨_, .queued hold hc, .stays _ _, trivial⟩
    · -- the callback was in the entry, or comes with the caller
      rcases List.mem_append.1 hc with hwas | hnew
      · refine ⟨_, .queued (List.mem_of_getElem? hmerged) hwas, .merged t fun hop => ?_, trivial⟩
        rw [hop] at hmerge
        exact Queue.merge_flush_right hmerge
      · refine ⟨_, .calling hcaller (Option.mem_toList.1 hnew), ?_, trivial⟩
        show Moves _ _ (.queued merged.slot opType)
        rw [hslot]
        refine .enqueued t fun hop => ?_
        rw [hop] at hmerge
        exact Queue.merge_flush_left hmerge
  | @pushed t e q hcaller hroom hqueue hbase hindexed =>
    change entry ∈ q.queue at hentry
    rw [hqueue, List.mem_append, List.mem_singleton] at hentry
    rcases hentry with hold | rfl
    · exact ⟨_, .queued hold hc, .stays _ _, trivial⟩
    · exact ⟨_, .calling hcaller (Option.mem_toList.1 hc), .enqueued t fun hop => hop, trivial⟩
  | @dequeue first q hidle hqueue hbase hindexed =>
    refine ⟨_, .queued ?_ hc, .stays _ _, trivial⟩
    rw [hqueue]
    exact List.mem_cons_of_mem _ hentry
  | _ => exact ⟨_, .queued hentry hc, .stays _ _, trivial⟩

theorem at_taken (hstep : s.Step event s') {c : κ} {entry : QueueEntry κ}
    (htook : s'.worker = .took entry) (hc : c ∈ entry.callbacks) :
    ∃ place, s.At c place ∧ Moves event place (.taken entry.slot entry.opType) ∧
      s.Grounds place (.taken entry.slot entry.opType) := by
  cases hstep with
  | @dequeue first q hidle hqueue hbase hindexed =>
    cases htook
    refine ⟨_, .queued ?_ hc, .taken _ _, trivial⟩
    rw [hqueue]
    exact List.mem_cons_self
  | gone => cases htook
  | ready => cases htook
  | start => cases htook
  | finish => cases htook
  | notify => cases htook
  | notified => cases htook
  | _ => exact ⟨_, .taken htook hc, .stays _ _, trivial⟩

theorem at_running (hstep : s.Step event s') {c : κ} {id : ObjSlotId} {opType : OpType}
    {callbacks : List κ} (hrunning : s'.worker = .running id opType callbacks)
    (hc : c ∈ callbacks) :
    ∃ place, s.At c place ∧ Moves event place (.running id opType) ∧
      s.Grounds place (.running id opType) := by
  cases hstep with
  | dequeue => cases hrunning
  | gone => cases hrunning
  | ready => cases hrunning
  | start htook hresident =>
    cases hrunning
    exact ⟨_, .taken htook hc, .started _ _, hresident⟩
  | finish => cases hrunning
  | notify => cases hrunning
  | notified => cases hrunning
  | _ => exact ⟨_, .running hrunning hc, .stays _ _, trivial⟩

theorem at_notifying (hstep : s.Step event s') {c : κ} {id : ObjSlotId} {callbacks : List κ}
    {success : Bool} (hnotifying : s'.worker = .notifying id callbacks success)
    (hc : c ∈ callbacks) :
    ∃ place, s.At c place ∧ Moves event place (.notifying id success) ∧
      s.Grounds place (.notifying id success) := by
  cases hstep with
  | dequeue => cases hnotifying
  | gone => cases hnotifying
  | ready htook hinit hresident =>
    cases hnotifying
    exact ⟨_, .taken htook hc, .ready hinit, hresident⟩
  | start => cases hnotifying
  | finish outcome hrunning =>
    cases hnotifying
    exact ⟨_, .running hrunning hc, .finished _ _ _, trivial⟩
  | notify hworker =>
    cases hnotifying
    exact ⟨_, .notifying hworker (List.mem_cons_of_mem _ hc), .stays _ _, trivial⟩
  | notified => cases hnotifying
  | _ => exact ⟨_, .notifying hnotifying hc, .stays _ _, trivial⟩

/-- A callback that ends with an event was in the list that the event ends. -/
theorem mem_endCallbacks {callbacks : List κ} {c : κ} {how how' : CallbackEnd}
    (hc : (c, how') ∈ (s.endCallbacks callbacks how).ended) :
    (c, how') ∈ s.ended ∨ c ∈ callbacks ∧ how' = how := by
  rcases List.mem_append.1 hc with hold | hnew
  · exact .inl hold
  · obtain ⟨c', hc', heq⟩ := List.mem_map.1 hnew
    obtain ⟨rfl, rfl⟩ := Prod.mk.inj heq
    exact .inr ⟨hc', rfl⟩

theorem at_ended (hstep : s.Step event s') {c : κ} {how : CallbackEnd} (hc : (c, how) ∈ s'.ended) :
    (∃ place, s.At c place ∧ Moves event place (.ended how) ∧ s.Grounds place (.ended how)) ∨
      s.Brings event c (.ended how) := by
  cases hstep with
  | @skipFlush t id callback fabric hlive hnone =>
    rcases mem_endCallbacks hc with hold | ⟨hnew, rfl⟩
    · exact .inl ⟨_, .ended hold, .stays _ _, trivial⟩
    · obtain rfl : callback = some c := Option.mem_toList.1 hnew
      exact .inr (.skipped (by rw [hlive]; rfl))
  | unnecessary hcaller hinit hresident =>
    rcases mem_endCallbacks hc with hold | ⟨hnew, rfl⟩
    · exact .inl ⟨_, .ended hold, .stays _ _, trivial⟩
    · exact .inl ⟨_, .calling hcaller (Option.mem_toList.1 hnew), .unnecessary _ hinit, hresident⟩
  | gone htook hgone =>
    rcases mem_endCallbacks hc with hold | ⟨hnew, rfl⟩
    · exact .inl ⟨_, .ended hold, .stays _ _, trivial⟩
    · exact .inl ⟨_, .taken htook hnew, .gone _ _, SlotMemory.isLive_eq_false hgone⟩
  | notify hworker =>
    rcases mem_endCallbacks hc with hold | ⟨hnew, rfl⟩
    · exact .inl ⟨_, .ended hold, .stays _ _, trivial⟩
    · obtain rfl := List.mem_singleton.1 hnew
      exact .inl ⟨_, .notifying hworker List.mem_cons_self, .notified _ _, trivial⟩
  | _ => exact .inl ⟨_, .ended hc, .stays _ _, trivial⟩

/-- A callback after an event was there before and has moved on with reason, or is new. -/
theorem At.step_grounds (hstep : s.Step event s') {c : κ} {place' : Place} (h : s'.At c place') :
    (∃ place, s.At c place ∧ Moves event place place' ∧ s.Grounds place place') ∨
      s.Brings event c place' := by
  cases h with
  | calling hcaller hc =>
    rcases at_calling hstep hcaller hc with hold | hnew
    · exact .inl ⟨_, hold, .stays _ _, trivial⟩
    · exact .inr hnew
  | queued hentry hc => exact .inl (at_queued hstep hentry hc)
  | taken htook hc => exact .inl (at_taken hstep htook hc)
  | running hrunning hc => exact .inl (at_running hstep hrunning hc)
  | notifying hnotifying hc => exact .inl (at_notifying hstep hnotifying hc)
  | ended hc => exact at_ended hstep hc

theorem At.step (hstep : s.Step event s') {c : κ} {place' : Place} (h : s'.At c place') :
    (∃ place, s.At c place ∧ Moves event place place') ∨ s.Brings event c place' :=
  (h.step_grounds hstep).imp_left fun ⟨place, hat, hmoves, _⟩ => ⟨place, hat, hmoves⟩

end Manager

end RapidArm.Objects
