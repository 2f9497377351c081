import RapidArm.Objects.Requests
import RapidArm.Mmu.ICache

/-!
# Writing object pages back

Stores to shared object pages, `IoMMU::refresh` and `IoMMU::flush` (`io-mmu/src/lib.rs`,
lines 1245–1281) over the object manager. Each thread goes through `flush_dyn`
(`io-mmu/src/page_table.rs`, lines 480–576) entry by entry: it consumes the flags under the
flush gate, reports the page to the instruction cache, releases the gate and queues the
write-back. An MMU appears as the list of its shared object slots; it is borrowed, and so
unchanged, as long as a call on it lasts.

Stores are counted. `written` is the number of stores to a slot that are done, and `saved`
how many of them were done when the last `fault_out` that succeeded had started.

Results:
* `written_remembered`: in a run in which no write-back fails for a page that nothing else
  remembers, a store that is not written back is remembered by a flag, by the queue or by
  the worker.
* `write_back_error_forgets`: a write-back that fails is forgotten.
-/

namespace RapidArm.Objects

open RapidArm.Lib RapidArm.Mmu

/-! ## State -/

/-- The identity of the channel of `make_sync_callback`. -/
abbrev Channel := ℕ

/-- A call of `IoMMU::flush`. -/
structure FlushCall where
  /-- The shared object slots of the MMU. -/
  table : List ObjSlotId
  /-- The stores to each slot that were done before the call. -/
  since : ObjSlotId → ℕ
  /-- `pending_jobs`, each with its slot. -/
  pending : List (Channel × ObjSlotId)

/-- Who calls `flush_dyn`. -/
inductive Caller
  | refresh
  | flush (call : FlushCall)

/-- The slots that a caller still needs besides those it has not come to. -/
def Caller.table : Caller → List ObjSlotId
  | .refresh => []
  | .flush call => call.table

/-- Where a thread is. -/
inductive Pc
  /-- In a store, after the bytes and before `set_dirty`. -/
  | storing (id : ObjSlotId)
  /-- Before the next entry of the page table. -/
  | walking (caller : Caller) (todo : List ObjSlotId)
  /-- In `icache().invalidate`, with the flush gate. -/
  | invalidating (caller : Caller) (id : ObjSlotId) (todo : List ObjSlotId)
  /-- After the flush gate, before `enqueue_flush`. -/
  | released (caller : Caller) (id : ObjSlotId) (todo : List ObjSlotId)
  /-- In `flush`, waiting for the pending jobs. -/
  | waiting (call : FlushCall)
  /-- `flush` returns this result. -/
  | returning (call : FlushCall) (ok : Bool)

/-- The slots of the MMU that the thread has borrowed. -/
def Pc.slots : Pc → List ObjSlotId
  | .storing id => [id]
  | .walking caller todo => caller.table ++ todo
  | .invalidating caller id todo => caller.table ++ id :: todo
  | .released caller id todo => caller.table ++ id :: todo
  | .waiting call => call.table
  | .returning call _ => call.table

/-- The thread has the flush gate of the slot. -/
def Pc.hasGate (id : ObjSlotId) : Pc → Bool
  | .invalidating _ id' _ => id' == id
  | _ => false

/-- The thread relies on the page of the slot. -/
def Pc.hasPage (id : ObjSlotId) : Pc → Prop
  | .storing id' => id' = id
  | .invalidating _ id' _ => id' = id
  | .released _ id' _ => id' = id
  | _ => False

/-- The object manager, the flags of the object pages and the threads. -/
structure WriteBack where
  manager : Manager Channel
  /-- The number of channels that were made. -/
  channels : ℕ
  flags : ObjSlotId → BitVec 8
  threads : AList fun _ : ThreadId => Pc
  written : ObjSlotId → ℕ
  /-- `written` when the worker started its task. -/
  started : ℕ
  saved : ObjSlotId → ℕ

/-- An action of a thread or of the object manager. -/
inductive Action
  | manager (event : Event Channel)
  /-- `load_obj_memory_sync_inner` of one entry. -/
  | faultIn (t : ThreadId) (id : ObjSlotId)
  | store (t : ThreadId) (id : ObjSlotId)
  /-- `set_dirty`, the end of a store. -/
  | mark (t : ThreadId)
  | refresh (t : ThreadId) (table : List ObjSlotId)
  | flush (t : ThreadId) (table : List ObjSlotId)
  /-- `flush_dyn` of the next entry up to `invalidate`. -/
  | inspect (t : ThreadId)
  /-- `invalidate` returns or panics. -/
  | invalidated (t : ThreadId) (panics : Bool)
  | enqueue (t : ThreadId)
  /-- A panic at an entry that is not a shared object page. -/
  | unwind (t : ThreadId)
  /-- The walk is over. -/
  | walked (t : ThreadId)
  /-- `recv` of the next pending job. -/
  | receive (t : ThreadId)
  /-- `recv` finds that the worker is gone. -/
  | disconnected (t : ThreadId)
  | leave (t : ThreadId)

namespace WriteBack

/-- The start, with no slots. -/
def new (queueLimit : ℕ) : WriteBack where
  manager := .new queueLimit
  channels := 0
  flags := fun _ => 0
  threads := ∅
  written := fun _ => 0
  started := 0
  saved := fun _ => 0

/-! ## Steps -/

/-- Some thread has borrowed an MMU with the slot. -/
def borrowed (s : WriteBack) (id : ObjSlotId) : Bool :=
  s.threads.entries.any (·.2.slots.contains id)

/-- The flush gate of the slot is taken. -/
def gated (s : WriteBack) (id : ObjSlotId) : Bool := s.threads.entries.any (·.2.hasGate id)

/-- The thread is in no call. -/
def Idle (s : WriteBack) (t : ThreadId) : Prop :=
  s.threads.lookup t = none ∧ s.manager.callers.lookup t = none

instance (s : WriteBack) (t : ThreadId) : Decidable (s.Idle t) :=
  inferInstanceAs (Decidable (_ ∧ _))

/-- Threads call the manager by `faultIn` and `enqueue` only, and a slot of a borrowed MMU is
    not dropped. -/
def allows (s : WriteBack) : Event Channel → Bool
  | .enqueueInit _ _ _ => false
  | .enqueueFlush _ _ _ => false
  | .dropSlot id => !s.borrowed id
  | _ => true

/-- The flags and counters after an event of the manager. -/
def record (s : WriteBack) (event : Event Channel) (m : Manager Channel) : WriteBack :=
  match event with
  | .newSlot id _ =>
    if s.manager.slots id = .free then
      { s with
        manager := m
        flags := Function.update s.flags id 0
        written := Function.update s.written id 0
        saved := Function.update s.saved id 0 }
    else { s with manager := m }
  | .upgrade =>
    match s.manager.worker with
    | .took entry => { s with manager := m, started := s.written entry.slot }
    | _ => { s with manager := m }
  | .finish .success =>
    match s.manager.worker with
    | .running id .flush _ =>
      { s with manager := m, saved := Function.update s.saved id (max (s.saved id) s.started) }
    | _ => { s with manager := m }
  | _ => { s with manager := m }

/-- The thread goes on. -/
def goto (s : WriteBack) (t : ThreadId) (pc : Pc) : WriteBack :=
  { s with threads := s.threads.insert t pc }

/-- The thread returns from its call, or unwinds. -/
def exit (s : WriteBack) (t : ThreadId) : WriteBack := { s with threads := s.threads.erase t }

/-- `flush_dyn` of a slot up to `invalidate`. -/
def inspectSlot (s : WriteBack) (t : ThreadId) (caller : Caller) (id : ObjSlotId)
    (todo : List ObjSlotId) : WriteBack :=
  if (s.manager.slots id).resident = false then s.goto t (.walking caller todo)
  else if s.gated id then s
  else if s.flags id &&& BOTH_DIRTY_MASK = 0 then s.goto t (.walking caller todo)
  else { s.goto t (.invalidating caller id todo) with
    flags := Function.update s.flags id (flushingFlags (s.flags id)) }

/-- `enqueue_flush`, with a new channel if the caller is a `flush`. -/
def enqueueSlot (s : WriteBack) (t : ThreadId) (caller : Caller) (id : ObjSlotId)
    (todo : List ObjSlotId) : Except Failure WriteBack :=
  match caller with
  | .refresh => do
    let m ← s.manager.step (.enqueueFlush t id none)
    return { s.goto t (.walking .refresh todo) with manager := m }
  | .flush call => do
    let m ← s.manager.step (.enqueueFlush t id (some s.channels))
    let call := { call with pending := call.pending ++ [(s.channels, id)] }
    return { s.goto t (.walking (.flush call) todo) with manager := m, channels := s.channels + 1 }

/-- `recv` of the next pending job. -/
def receiveJob (s : WriteBack) (t : ThreadId) (call : FlushCall) : WriteBack :=
  match call.pending with
  | [] => s.goto t (.returning call true)
  | (c, _) :: rest =>
    if (c, .succeeded) ∈ s.manager.ended then s.goto t (.waiting { call with pending := rest })
    else if (c, .failed) ∈ s.manager.ended ∨ (c, .dropped) ∈ s.manager.ended then
      s.goto t (.returning call false)
    else s

/-- One action. An action that cannot happen now changes nothing. -/
def step (s : WriteBack) : Action → Except Failure WriteBack
  | .manager event =>
    if s.allows event then do return s.record event (← s.manager.step event) else .ok s
  | .faultIn t id =>
    if s.Idle t then do
      let m ← s.manager.step (.enqueueInit t id (some s.channels))
      return { s with manager := m, channels := s.channels + 1 }
    else .ok s
  | .store t id =>
    if s.Idle t ∧ (s.manager.slots id).resident then .ok (s.goto t (.storing id)) else .ok s
  | .mark t =>
    match s.threads.lookup t with
    | some (.storing id) =>
      .ok { s.exit t with
        flags := Function.update s.flags id (s.flags id ||| IS_DIRTY_FLAG)
        written := Function.update s.written id (s.written id + 1) }
    | _ => .ok s
  | .refresh t table =>
    if s.Idle t ∧ table.all fun id => (s.manager.slots id).isLive then
      .ok (s.goto t (.walking .refresh table))
    else .ok s
  | .flush t table =>
    if s.Idle t ∧ table.all fun id => (s.manager.slots id).isLive then
      .ok (s.goto t (.walking (.flush ⟨table, s.written, []⟩) table))
    else .ok s
  | .inspect t =>
    match s.threads.lookup t, s.manager.callers.lookup t with
    | some (.walking caller (id :: todo)), none => .ok (s.inspectSlot t caller id todo)
    | _, _ => .ok s
  | .invalidated t panics =>
    match s.threads.lookup t with
    | some (.invalidating caller id todo) =>
      if panics then .ok (s.exit t)
      else .ok { s.goto t (.released caller id todo) with
        flags := Function.update s.flags id (s.flags id &&& ~~~ IS_FLUSHING_DIRTY_PAGE) }
    | _ => .ok s
  | .enqueue t =>
    match s.threads.lookup t with
    | some (.released caller id todo) => s.enqueueSlot t caller id todo
    | _ => .ok s
  | .unwind t =>
    match s.threads.lookup t, s.manager.callers.lookup t with
    | some (.walking _ _), none => .ok (s.exit t)
    | _, _ => .ok s
  | .walked t =>
    match s.threads.lookup t, s.manager.callers.lookup t with
    | some (.walking .refresh []), none => .ok (s.exit t)
    | some (.walking (.flush call) []), none => .ok (s.goto t (.waiting call))
    | _, _ => .ok s
  | .receive t =>
    match s.threads.lookup t with
    | some (.waiting call) => .ok (s.receiveJob t call)
    | _ => .ok s
  | .disconnected t =>
    match s.threads.lookup t with
    | some (.waiting call) => .ok (s.goto t (.returning call false))
    | _ => .ok s
  | .leave t =>
    match s.threads.lookup t with
    | some (.returning _ _) => .ok (s.exit t)
    | _ => .ok s

/-- A run from the start. -/
def run (queueLimit : ℕ) (actions : List Action) : Except Failure WriteBack :=
  actions.foldlM step (new queueLimit)

/-! ## What an action does -/

/-- The actions that do something, each with when it can happen and the state after it. -/
inductive Change (s : WriteBack) : Action → WriteBack → Prop
  | nothing (action : Action) : Change s action s
  | manager {event : Event Channel} {m : Manager Channel} (hallows : s.allows event = true)
    (hstep : s.manager.Step event m) : Change s (.manager event) (s.record event m)
  | faultIn {t : ThreadId} {id : ObjSlotId} {m : Manager Channel} (hidle : s.Idle t)
    (hstep : s.manager.Step (.enqueueInit t id (some s.channels)) m) :
    Change s (.faultIn t id) { s with manager := m, channels := s.channels + 1 }
  | store {t : ThreadId} {id : ObjSlotId} (hidle : s.Idle t)
    (hresident : (s.manager.slots id).resident = true) :
      Change s (.store t id) (s.goto t (.storing id))
  | mark {t : ThreadId} {id : ObjSlotId} (hpc : s.threads.lookup t = some (.storing id)) :
    Change s (.mark t) { s.exit t with
      flags := Function.update s.flags id (s.flags id ||| IS_DIRTY_FLAG)
      written := Function.update s.written id (s.written id + 1) }
  | refresh {t : ThreadId} {table : List ObjSlotId} (hidle : s.Idle t)
    (hlive : ∀ id ∈ table, (s.manager.slots id).isLive = true) :
    Change s (.refresh t table) (s.goto t (.walking .refresh table))
  | flush {t : ThreadId} {table : List ObjSlotId} (hidle : s.Idle t)
    (hlive : ∀ id ∈ table, (s.manager.slots id).isLive = true) :
    Change s (.flush t table) (s.goto t (.walking (.flush ⟨table, s.written, []⟩) table))
  | skip {t : ThreadId} {caller : Caller} {id : ObjSlotId} {todo : List ObjSlotId}
    (hpc : s.threads.lookup t = some (.walking caller (id :: todo)))
    (hcalls : s.manager.callers.lookup t = none)
    (hclean : (s.manager.slots id).resident = false ∨ s.flags id &&& BOTH_DIRTY_MASK = 0) :
    Change s (.inspect t) (s.goto t (.walking caller todo))
  | inspect {t : ThreadId} {caller : Caller} {id : ObjSlotId} {todo : List ObjSlotId}
    (hpc : s.threads.lookup t = some (.walking caller (id :: todo)))
    (hcalls : s.manager.callers.lookup t = none) (hresident : (s.manager.slots id).resident = true)
    (hgate : s.gated id = false) (hflag : s.flags id &&& BOTH_DIRTY_MASK ≠ 0) :
    Change s (.inspect t) { s.goto t (.invalidating caller id todo) with
      flags := Function.update s.flags id (flushingFlags (s.flags id)) }
  | invalidated {t : ThreadId} {caller : Caller} {id : ObjSlotId} {todo : List ObjSlotId}
    (hpc : s.threads.lookup t = some (.invalidating caller id todo)) :
    Change s (.invalidated t false) { s.goto t (.released caller id todo) with
      flags := Function.update s.flags id (s.flags id &&& ~~~ IS_FLUSHING_DIRTY_PAGE) }
  | panicked {t : ThreadId} {caller : Caller} {id : ObjSlotId} {todo : List ObjSlotId}
    (hpc : s.threads.lookup t = some (.invalidating caller id todo)) :
    Change s (.invalidated t true) (s.exit t)
  | enqueueRefresh {t : ThreadId} {id : ObjSlotId} {todo : List ObjSlotId} {m : Manager Channel}
    (hpc : s.threads.lookup t = some (.released .refresh id todo))
    (hok : s.manager.step (.enqueueFlush t id none) = .ok m) :
    Change s (.enqueue t) { s.goto t (.walking .refresh todo) with manager := m }
  | enqueueFlush {t : ThreadId} {call : FlushCall} {id : ObjSlotId} {todo : List ObjSlotId}
    {m : Manager Channel} (hpc : s.threads.lookup t = some (.released (.flush call) id todo))
    (hok : s.manager.step (.enqueueFlush t id (some s.channels)) = .ok m) :
    Change s (.enqueue t) { s.goto t (.walking
      (.flush { call with pending := call.pending ++ [(s.channels, id)] }) todo) with
      manager := m
      channels := s.channels + 1 }
  | unwind {t : ThreadId} {caller : Caller} {todo : List ObjSlotId}
    (hpc : s.threads.lookup t = some (.walking caller todo))
    (hcalls : s.manager.callers.lookup t = none) : Change s (.unwind t) (s.exit t)
  | refreshed {t : ThreadId} (hpc : s.threads.lookup t = some (.walking .refresh []))
    (hcalls : s.manager.callers.lookup t = none) : Change s (.walked t) (s.exit t)
  | walked {t : ThreadId} {call : FlushCall} (hpc : s.threads.lookup t =
    some (.walking (.flush call) []))
    (hcalls : s.manager.callers.lookup t = none) : Change s (.walked t) (s.goto t (.waiting call))
  | received {t : ThreadId} {call : FlushCall} {c : Channel} {id : ObjSlotId}
    {rest : List (Channel × ObjSlotId)} (hpc : s.threads.lookup t = some (.waiting call))
    (hpending : call.pending = (c, id) :: rest) (hended : (c, .succeeded) ∈ s.manager.ended) :
    Change s (.receive t) (s.goto t (.waiting { call with pending := rest }))
  | failed {t : ThreadId} {call : FlushCall} (action : Action)
    (hpc : s.threads.lookup t = some (.waiting call)) :
    Change s action (s.goto t (.returning call false))
  | succeeded {t : ThreadId} {call : FlushCall} (hpc : s.threads.lookup t = some (.waiting call))
    (hpending : call.pending = []) : Change s (.receive t) (s.goto t (.returning call true))
  | leave {t : ThreadId} {call : FlushCall} {ok : Bool}
    (hpc : s.threads.lookup t = some (.returning call ok)) : Change s (.leave t) (s.exit t)

variable {s s' : WriteBack}

theorem inspectSlot_cases {t : ThreadId} {caller : Caller} {id : ObjSlotId} {todo : List ObjSlotId}
    (hpc : s.threads.lookup t = some (.walking caller (id :: todo)))
    (hcalls : s.manager.callers.lookup t = none) :
    s.Change (.inspect t) (s.inspectSlot t caller id todo) := by
  unfold inspectSlot
  split_ifs with hresident hgate hflag
  · exact .skip hpc hcalls (.inl hresident)
  · exact .nothing _
  · exact .skip hpc hcalls (.inr hflag)
  · exact .inspect hpc hcalls (Bool.not_eq_false _ ▸ hresident) (Bool.not_eq_true _ ▸ hgate) hflag

theorem enqueueSlot_cases {t : ThreadId} {caller : Caller} {id : ObjSlotId} {todo : List ObjSlotId}
    (hpc : s.threads.lookup t = some (.released caller id todo))
    (hok : s.enqueueSlot t caller id todo = .ok s') : s.Change (.enqueue t) s' := by
  cases caller with
  | refresh =>
    obtain ⟨m, hm, hok⟩ := bind_eq_ok.1 hok
    obtain rfl := Except.ok.inj hok
    exact .enqueueRefresh hpc hm
  | flush call =>
    obtain ⟨m, hm, hok⟩ := bind_eq_ok.1 hok
    obtain rfl := Except.ok.inj hok
    exact .enqueueFlush hpc hm

theorem receiveJob_cases {t : ThreadId} {call : FlushCall}
    (hpc : s.threads.lookup t = some (.waiting call)) :
    s.Change (.receive t) (s.receiveJob t call) := by
  unfold receiveJob
  split
  · rename_i hpending
    exact .succeeded hpc hpending
  · rename_i c id rest hpending
    split_ifs with hsuccess hfailure
    · exact .received hpc hpending hsuccess
    · exact .failed _ hpc
    · exact .nothing _

theorem change_of_step (hindexed : s.manager.queue.WellIndexed) {action : Action}
    (hok : s.step action = .ok s') : s.Change action s' := by
  cases action with
  | manager event =>
    simp only [step] at hok
    split_ifs at hok with hallows
    · obtain ⟨m, hm, hok⟩ := bind_eq_ok.1 hok
      obtain rfl := Except.ok.inj hok
      exact .manager hallows (Manager.step_cases hindexed hm)
    · obtain rfl := Except.ok.inj hok
      exact .nothing _
  | faultIn t id =>
    simp only [step] at hok
    split_ifs at hok with hidle
    · obtain ⟨m, hm, hok⟩ := bind_eq_ok.1 hok
      obtain rfl := Except.ok.inj hok
      exact .faultIn hidle (Manager.step_cases hindexed hm)
    · obtain rfl := Except.ok.inj hok
      exact .nothing _
  | store t id =>
    simp only [step] at hok
    split_ifs at hok with hidle
    · obtain rfl := Except.ok.inj hok
      exact .store hidle.1 hidle.2
    · obtain rfl := Except.ok.inj hok
      exact .nothing _
  | mark t =>
    simp only [step] at hok
    split at hok
    · rename_i hpc
      obtain rfl := Except.ok.inj hok
      exact .mark hpc
    · obtain rfl := Except.ok.inj hok
      exact .nothing _
  | refresh t table =>
    simp only [step] at hok
    split_ifs at hok with hidle
    · obtain rfl := Except.ok.inj hok
      exact .refresh hidle.1 (List.all_eq_true.1 hidle.2)
    · obtain rfl := Except.ok.inj hok
      exact .nothing _
  | flush t table =>
    simp only [step] at hok
    split_ifs at hok with hidle
    · obtain rfl := Except.ok.inj hok
      exact .flush hidle.1 (List.all_eq_true.1 hidle.2)
    · obtain rfl := Except.ok.inj hok
      exact .nothing _
  | inspect t =>
    simp only [step] at hok
    split at hok
    · rename_i hpc hcalls
      obtain rfl := Except.ok.inj hok
      exact inspectSlot_cases hpc hcalls
    · obtain rfl := Except.ok.inj hok
      exact .nothing _
  | invalidated t panics =>
    simp only [step] at hok
    split at hok
    · rename_i hpc
      cases panics with
      | true =>
        obtain rfl := Except.ok.inj hok
        exact .panicked hpc
      | false =>
        obtain rfl := Except.ok.inj hok
        exact .invalidated hpc
    · obtain rfl := Except.ok.inj hok
      exact .nothing _
  | enqueue t =>
    simp only [step] at hok
    split at hok
    · rename_i hpc
      exact enqueueSlot_cases hpc hok
    · obtain rfl := Except.ok.inj hok
      exact .nothing _
  | unwind t =>
    simp only [step] at hok
    split at hok
    · rename_i hpc hcalls
      obtain rfl := Except.ok.inj hok
      exact .unwind hpc hcalls
    · obtain rfl := Except.ok.inj hok
      exact .nothing _
  | walked t =>
    simp only [step] at hok
    split at hok
    · rename_i hpc hcalls
      obtain rfl := Except.ok.inj hok
      exact .refreshed hpc hcalls
    · rename_i hpc hcalls
      obtain rfl := Except.ok.inj hok
      exact .walked hpc hcalls
    · obtain rfl := Except.ok.inj hok
      exact .nothing _
  | receive t =>
    simp only [step] at hok
    split at hok
    · rename_i hpc
      obtain rfl := Except.ok.inj hok
      exact receiveJob_cases hpc
    · obtain rfl := Except.ok.inj hok
      exact .nothing _
  | disconnected t =>
    simp only [step] at hok
    split at hok
    · rename_i hpc
      obtain rfl := Except.ok.inj hok
      exact .failed _ hpc
    · obtain rfl := Except.ok.inj hok
      exact .nothing _
  | leave t =>
    simp only [step] at hok
    split at hok
    · rename_i hpc
      obtain rfl := Except.ok.inj hok
      exact .leave hpc
    · obtain rfl := Except.ok.inj hok
      exact .nothing _

/-! ## Threads -/

@[simp] theorem lookup_goto (t t' : ThreadId) (pc : Pc) :
    (s.goto t pc).threads.lookup t' = if t' = t then some pc else s.threads.lookup t' :=
  lookup_insert_if s.threads t t' pc

@[simp] theorem lookup_exit (t t' : ThreadId) :
    (s.exit t).threads.lookup t' = if t' = t then none else s.threads.lookup t' :=
  lookup_erase_if s.threads t t'

theorem mem_threads {t : ThreadId} {pc : Pc} (hpc : s.threads.lookup t = some pc) :
    (⟨t, pc⟩ : Sigma fun _ : ThreadId => Pc) ∈ s.threads.entries :=
  AList.mem_lookup_iff.1 hpc

theorem not_hasGate {id : ObjSlotId} (hgate : s.gated id = false) {t : ThreadId} {pc : Pc}
    (hpc : s.threads.lookup t = some pc) : pc.hasGate id = false := by
  unfold gated at hgate
  rw [List.any_eq_false] at hgate
  exact Bool.not_eq_true _ ▸ hgate _ (mem_threads hpc)

theorem borrowed_of_mem {id : ObjSlotId} {t : ThreadId} {pc : Pc}
    (hpc : s.threads.lookup t = some pc) (hid : id ∈ pc.slots) : s.borrowed id = true := by
  unfold borrowed
  rw [List.any_eq_true]
  exact ⟨_, mem_threads hpc, by simpa using hid⟩

/-- What holds of a thread: its slots are there, and with the gate the page is flushing. -/
structure PcOk (s : WriteBack) (t : ThreadId) (pc : Pc) : Prop where
  live : ∀ id ∈ pc.slots, (s.manager.slots id).isLive = true
  resident : ∀ id, pc.hasPage id → (s.manager.slots id).resident = true
  flushing : ∀ id, pc.hasGate id = true → s.flags id &&& IS_FLUSHING_DIRTY_PAGE ≠ 0
  calls : (∀ caller todo, pc ≠ .walking caller todo) → s.manager.callers.lookup t = none

/-- What holds between any two actions. -/
structure Inv (s : WriteBack) : Prop where
  manager : s.manager.Inv
  threads : ∀ t pc, s.threads.lookup t = some pc → s.PcOk t pc
  gate : ∀ t t' pc pc' id, s.threads.lookup t = some pc → s.threads.lookup t' = some pc' →
    pc.hasGate id = true → pc'.hasGate id = true → t = t'
  flushers : ∀ t e, s.manager.callers.lookup t = some e → e.opType = .flush →
    s.threads.lookup t ≠ none

theorem inv_new (queueLimit : ℕ) : (new queueLimit).Inv where
  manager := Manager.inv_new queueLimit
  threads := fun _ _ hpc => by cases hpc
  gate := fun _ _ _ _ _ hpc => by cases hpc
  flushers := fun _ _ hcaller => by cases hcaller

theorem Inv.goto (h : s.Inv) {t : ThreadId} {pc : Pc} (hok : s.PcOk t pc)
    (hgate : ∀ id t' pc', pc.hasGate id = true → t' ≠ t → s.threads.lookup t' = some pc' →
      pc'.hasGate id = false) : (s.goto t pc).Inv where
  manager := h.manager
  threads := by
    intro t' pc' hpc'
    rw [lookup_goto] at hpc'
    split_ifs at hpc' with ht
    · subst ht
      obtain rfl := Option.some.inj hpc'
      exact ⟨hok.live, hok.resident, hok.flushing, hok.calls⟩
    · have hold := h.threads t' pc' hpc'
      exact ⟨hold.live, hold.resident, hold.flushing, hold.calls⟩
  gate := by
    intro t₁ t₂ pc₁ pc₂ id hpc₁ hpc₂ hgate₁ hgate₂
    rw [lookup_goto] at hpc₁ hpc₂
    split_ifs at hpc₁ hpc₂ with ht₁ ht₂ ht₂
    · rw [ht₁, ht₂]
    · obtain rfl := Option.some.inj hpc₁
      exact absurd hgate₂ (by rw [hgate id t₂ pc₂ hgate₁ ht₂ hpc₂]; nofun)
    · obtain rfl := Option.some.inj hpc₂
      exact absurd hgate₁ (by rw [hgate id t₁ pc₁ hgate₂ ht₁ hpc₁]; nofun)
    · exact h.gate t₁ t₂ pc₁ pc₂ id hpc₁ hpc₂ hgate₁ hgate₂
  flushers := by
    intro t' e hcaller hop
    rw [lookup_goto]
    split_ifs
    · nofun
    · exact h.flushers t' e hcaller hop

theorem Inv.exit (h : s.Inv) {t : ThreadId} (hcalls : s.manager.callers.lookup t = none) :
    (s.exit t).Inv where
  manager := h.manager
  threads := by
    intro t' pc' hpc'
    rw [lookup_exit] at hpc'
    split_ifs at hpc' with ht
    have hold := h.threads t' pc' hpc'
    exact ⟨hold.live, hold.resident, hold.flushing, hold.calls⟩
  gate := by
    intro t₁ t₂ pc₁ pc₂ id hpc₁ hpc₂ hgate₁ hgate₂
    rw [lookup_exit] at hpc₁ hpc₂
    split_ifs at hpc₁ hpc₂
    exact h.gate t₁ t₂ pc₁ pc₂ id hpc₁ hpc₂ hgate₁ hgate₂
  flushers := by
    intro t' e hcaller hop
    rw [lookup_exit]
    split_ifs with ht
    · subst ht
      rw [show (s.exit t').manager.callers.lookup t' = none from hcalls] at hcaller
      cases hcaller
    · exact h.flushers t' e hcaller hop

/-- The flags change, but not those of a page that a thread flushes. -/
theorem Inv.withFlags (h : s.Inv) {flags : ObjSlotId → BitVec 8}
    (hflags : ∀ t pc id, s.threads.lookup t = some pc → pc.hasGate id = true →
      flags id &&& IS_FLUSHING_DIRTY_PAGE ≠ 0) : ({ s with flags := flags } : WriteBack).Inv where
  manager := h.manager
  threads := by
    intro t pc hpc
    have hold := h.threads t pc hpc
    exact ⟨hold.live, hold.resident, fun id => hflags t pc id hpc, hold.calls⟩
  gate := h.gate
  flushers := h.flushers

/-- The counters are not read. -/
theorem Inv.withCounters (h : s.Inv) (channels started : ℕ) (written saved : ObjSlotId → ℕ) :
    ({ s with channels := channels, started := started, written := written, saved := saved } :
      WriteBack).Inv := by
  refine ⟨h.manager, fun t pc hpc => ?_, h.gate, h.flushers⟩
  have hold := h.threads t pc hpc
  exact ⟨hold.live, hold.resident, hold.flushing, hold.calls⟩

/-- The manager moves on; a thread that calls it is walking. -/
theorem Inv.withManager (h : s.Inv) {event : Event Channel} {m : Manager Channel}
    (hstep : s.manager.Step event m) (hdrop : ∀ id, event = .dropSlot id → s.borrowed id = false)
    (hinit : ∀ t id callback, event = .enqueueInit t id callback → s.threads.lookup t = none)
    (hflush : ∀ t id callback, event = .enqueueFlush t id callback →
      ∃ caller todo, s.threads.lookup t = some (.walking caller todo)) :
    ({ s with manager := m } : WriteBack).Inv where
  manager := h.manager.step hstep
  threads := by
    intro t pc hpc
    change s.threads.lookup t = some pc at hpc
    have hold := h.threads t pc hpc
    have hkeep : ∀ id ∈ pc.slots, (m.slots id).isLive = true ∧
        ((s.manager.slots id).resident = true → (m.slots id).resident = true) := by
      intro id hid
      refine Manager.slots_step hstep (hold.live id hid) ?_
      rintro rfl
      have hfree := hdrop id rfl
      rw [borrowed_of_mem hpc hid] at hfree
      cases hfree
    refine ⟨fun id hid => (hkeep id hid).1, fun id hpage => ?_, hold.flushing, fun hwalking => ?_⟩
    · refine (hkeep id ?_).2 (hold.resident id hpage)
      cases pc with
      | storing id' =>
        obtain rfl : id' = id := hpage
        simp [Pc.slots]
      | invalidating caller id' todo =>
        obtain rfl : id' = id := hpage
        simp [Pc.slots]
      | released caller id' todo =>
        obtain rfl : id' = id := hpage
        simp [Pc.slots]
      | _ => cases hpage
    · -- a thread that is not walking does not call
      cases hcaller : m.callers.lookup t with
      | none => rfl
      | some e =>
        exfalso
        rcases Manager.callers_step hstep hcaller with
          hwas | ⟨id, callback, hevent, -⟩ | ⟨id, callback, hevent⟩
        · rw [hold.calls hwalking] at hwas
          cases hwas
        · rw [hinit t id callback hevent] at hpc
          cases hpc
        · obtain ⟨caller, todo, hwalk⟩ := hflush t id callback hevent
          exact hwalking caller todo (Option.some.inj (hpc.symm.trans hwalk))
  gate := h.gate
  flushers := by
    intro t e hcaller hop
    rcases Manager.callers_step hstep hcaller with
      hwas | ⟨id, callback, hevent, hinit'⟩ | ⟨id, callback, hevent⟩
    · exact h.flushers t e hwas hop
    · exact absurd hop hinit'
    · obtain ⟨caller, todo, hwalk⟩ := hflush t id callback hevent
      show s.threads.lookup t ≠ none
      rw [hwalk]
      nofun

theorem flushing_of_mark : ∀ flags : BitVec 8, flags &&& IS_FLUSHING_DIRTY_PAGE ≠ 0 →
    (flags ||| IS_DIRTY_FLAG) &&& IS_FLUSHING_DIRTY_PAGE ≠ 0 := by
  decide

theorem flushing_of_inspect : ∀ flags : BitVec 8, flags &&& BOTH_DIRTY_MASK ≠ 0 →
    flushingFlags flags &&& IS_FLUSHING_DIRTY_PAGE ≠ 0 := by
  decide

theorem hasGate_mem_slots {pc : Pc} {id : ObjSlotId} (hgate : pc.hasGate id = true) :
    id ∈ pc.slots := by
  cases pc with
  | invalidating caller id' todo =>
    obtain rfl : id' = id := by simpa [Pc.hasGate] using hgate
    simp [Pc.slots]
  | _ => cases hgate

/-- A page gets flags, and still has the flushing flag if some thread flushes it. -/
theorem Inv.updateFlags (h : s.Inv) {id : ObjSlotId} {flags : BitVec 8}
    (hflags : ∀ t pc, s.threads.lookup t = some pc → pc.hasGate id = true →
      flags &&& IS_FLUSHING_DIRTY_PAGE ≠ 0) :
    ({ s with flags := Function.update s.flags id flags } : WriteBack).Inv := by
  refine h.withFlags fun t pc id' hpc hgate => ?_
  by_cases hid : id' = id
  · subst hid
    rw [Function.update_self]
    exact hflags t pc hpc hgate
  · rw [Function.update_of_ne hid]
    exact (h.threads t pc hpc).flushing id' hgate

theorem Inv.record (h : s.Inv) {event : Event Channel} {m : Manager Channel}
    (hallows : s.allows event = true) (hstep : s.manager.Step event m) :
    (s.record event m).Inv := by
  have hm : ({ s with manager := m } : WriteBack).Inv := by
    refine h.withManager hstep ?_ ?_ ?_
    · rintro id rfl
      simpa [allows] using hallows
    · rintro t id callback rfl
      cases hallows
    · rintro t id callback rfl
      cases hallows
  unfold WriteBack.record
  split
  · rename_i id fabric
    split_ifs with hfree
    · -- no thread has the gate of a slot that is not there
      refine Inv.withCounters (Inv.updateFlags hm fun t pc hpc hgate => ?_) _ _ _ _
      have hlive := (h.threads t pc hpc).live id (hasGate_mem_slots hgate)
      rw [hfree] at hlive
      cases hlive
    · exact hm
  · split
    · exact hm.withCounters _ _ _ _
    · exact hm
  · split
    · exact hm.withCounters _ _ _ _
    · exact hm
  · exact hm

/-- The slots of a table that are there. -/
theorem PcOk.walking {t : ThreadId} {caller : Caller} {todo : List ObjSlotId}
    (hlive : ∀ id ∈ caller.table ++ todo, (s.manager.slots id).isLive = true) :
    s.PcOk t (.walking caller todo) where
  live := hlive
  resident := fun _ hpage => by cases hpage
  flushing := fun _ hgate => by cases hgate
  calls := fun hwalking => absurd rfl (hwalking caller todo)

/-- One action keeps the invariant. -/
theorem Inv.change (h : s.Inv) {action : Action} (hchange : s.Change action s') : s'.Inv := by
  cases hchange with
  | nothing => exact h
  | manager hallows hstep => exact h.record hallows hstep
  | @faultIn t id m hidle hstep =>
    refine Inv.withCounters (Inv.withManager h hstep nofun ?_ nofun) _ _ _ _
    rintro t' id' callback ⟨⟩
    exact hidle.1
  | @store t id hidle hresident =>
    refine h.goto ⟨?_, ?_, nofun, fun _ => hidle.2⟩ nofun
    · intro id' hid'
      obtain rfl := List.mem_singleton.1 hid'
      exact SlotMemory.isLive_of_resident hresident
    · rintro _ rfl
      exact hresident
  | @mark t id hpc =>
    have hcalls := (h.threads t _ hpc).calls nofun
    refine Inv.withCounters (Inv.updateFlags (Inv.exit h hcalls) fun t' pc hpc' hgate => ?_) _ _ _ _
    rw [lookup_exit] at hpc'
    split_ifs at hpc'
    exact flushing_of_mark _ ((h.threads t' pc hpc').flushing id hgate)
  | refresh hidle hlive => exact h.goto (PcOk.walking hlive) nofun
  | @flush t table hidle hlive =>
    refine h.goto (PcOk.walking fun id hid => ?_) nofun
    rcases List.mem_append.1 hid with htable | htodo
    · exact hlive id htable
    · exact hlive id htodo
  | @skip t caller id todo hpc hcalls hclean =>
    refine h.goto (PcOk.walking fun id' hid' => (h.threads t _ hpc).live id' ?_) nofun
    simp only [Pc.slots, List.mem_append, List.mem_cons] at hid' ⊢
    tauto
  | @inspect t caller id todo hpc hcalls hresident hgate hflag =>
    have hflags : ({ s with flags := Function.update s.flags id (flushingFlags (s.flags id)) } :
        WriteBack).Inv := h.updateFlags fun _ _ _ _ => flushing_of_inspect _ hflag
    refine hflags.goto ⟨fun id' hid' => (h.threads t _ hpc).live id' hid', ?_, ?_,
      fun _ => hcalls⟩ ?_
    · rintro _ rfl
      exact hresident
    · intro id' hgate'
      obtain rfl : id = id' := by simpa [Pc.hasGate] using hgate'
      show Function.update s.flags id _ id &&& _ ≠ 0
      rw [Function.update_self]
      exact flushing_of_inspect _ hflag
    · intro id' t' pc' hgate' _ hpc'
      obtain rfl : id = id' := by simpa [Pc.hasGate] using hgate'
      exact not_hasGate hgate hpc'
  | @invalidated t caller id todo hpc =>
    have hok := h.threads t _ hpc
    have hhas : (Pc.invalidating caller id todo).hasGate id = true := by simp [Pc.hasGate]
    have hpcOk : s.PcOk t (.released caller id todo) :=
      ⟨hok.live, hok.resident, nofun, fun _ => hok.calls nofun⟩
    refine Inv.updateFlags (h.goto hpcOk nofun) fun t' pc hpc' hgate => ?_
    -- the gate of this slot was with the thread itself
    rw [lookup_goto] at hpc'
    split_ifs at hpc' with ht
    · obtain rfl := Option.some.inj hpc'
      cases hgate
    · exact absurd (h.gate t' t pc _ id hpc' hpc hgate hhas) ht
  | panicked hpc => exact h.exit ((h.threads _ _ hpc).calls nofun)
  | @enqueueRefresh t id todo m hpc hm =>
    have hok := h.threads t _ hpc
    have hwalk : (s.goto t (.walking .refresh todo)).Inv := by
      refine h.goto (PcOk.walking fun id' hid' => hok.live id' ?_) nofun
      exact List.mem_cons_of_mem _ hid'
    refine Inv.withManager hwalk (Manager.step_cases h.manager.indexed hm) nofun nofun ?_
    rintro t' id' callback ⟨⟩
    exact ⟨.refresh, todo, by simp⟩
  | @enqueueFlush t call id todo m hpc hm =>
    have hok := h.threads t _ hpc
    have hwalk : (s.goto t (.walking
        (.flush { call with pending := call.pending ++ [(s.channels, id)] }) todo)).Inv := by
      refine h.goto (PcOk.walking fun id' hid' => hok.live id' ?_) nofun
      simp only [Pc.slots, Caller.table, List.mem_append, List.mem_cons] at hid' ⊢
      tauto
    refine Inv.withCounters
      (Inv.withManager hwalk (Manager.step_cases h.manager.indexed hm) nofun nofun ?_) _ _ _ _
    rintro t' id' callback ⟨⟩
    exact ⟨.flush { call with pending := call.pending ++ [(s.channels, id)] }, todo, by simp⟩
  | unwind hpc hcalls => exact h.exit hcalls
  | refreshed hpc hcalls => exact h.exit hcalls
  | @walked t call hpc hcalls =>
    refine h.goto ⟨fun id hid => (h.threads t _ hpc).live id ?_, nofun, nofun,
      fun _ => hcalls⟩ nofun
    exact List.mem_append_left _ hid
  | @received t call c id rest hpc hpending hended =>
    have hok := h.threads t _ hpc
    exact h.goto ⟨hok.live, nofun, nofun, fun _ => hok.calls nofun⟩ nofun
  | @failed t call action hpc =>
    have hok := h.threads t _ hpc
    exact h.goto ⟨hok.live, nofun, nofun, fun _ => hok.calls nofun⟩ nofun
  | @succeeded t call hpc hpending =>
    have hok := h.threads t _ hpc
    exact h.goto ⟨hok.live, nofun, nofun, fun _ => hok.calls nofun⟩ nofun
  | leave hpc => exact h.exit ((h.threads _ _ hpc).calls nofun)

/-! ## Runs -/

/-- Every action of a run, with the state before it, satisfies `P`. -/
def EveryAction (P : WriteBack → Action → Prop) (queueLimit : ℕ) (actions : List Action) : Prop :=
  Always (fun before action => ∀ s, run queueLimit before = .ok s → P s action) actions

/-- The rule for invariants that need a condition on the actions. -/
theorem run_induction {P : WriteBack → Action → Prop} {I : WriteBack → Prop} {queueLimit : ℕ}
    {actions : List Action} (hactions : EveryAction P queueLimit actions)
    (hnew : I (new queueLimit))
    (hstep : ∀ {s s' action}, s.Inv → I s → P s action → s.Change action s' → I s')
    (hrun : run queueLimit actions = .ok s) : s.Inv ∧ I s := by
  refine EveryCall.invariant (I := fun s => s.Inv ∧ I s) hactions ⟨inv_new queueLimit, hnew⟩ ?_ hrun
  rintro s₁ s₂ action ⟨hinv, hI⟩ haction hok
  have hchange := change_of_step hinv.manager.indexed hok
  exact ⟨hinv.change hchange, hstep hinv hI haction hchange⟩

theorem inv_run {queueLimit : ℕ} {actions : List Action} (hrun : run queueLimit actions = .ok s) :
    s.Inv := by
  refine (run_induction (P := fun _ _ => True) (I := fun _ => True) ?_ trivial ?_ hrun).1
  · exact fun _ _ _ _ _ _ => trivial
  · exact fun _ _ _ _ => trivial

/-- `exclusive_access_error` is not reached: consuming the flags leaves the flushing flag
    alone, and a thread that returns from `invalidate` finds it still set. -/
theorem exclusive_access {queueLimit : ℕ} {actions : List Action}
    (hrun : run queueLimit actions = .ok s) :
    (∀ flags : BitVec 8, flags &&& BOTH_DIRTY_MASK ≠ 0 →
      flushingFlags flags &&& BOTH_DIRTY_MASK = IS_FLUSHING_DIRTY_PAGE) ∧
    ∀ t caller id todo, s.threads.lookup t = some (.invalidating caller id todo) →
      s.flags id &&& IS_FLUSHING_DIRTY_PAGE ≠ 0 := by
  refine ⟨by decide, fun t caller id todo hpc => ?_⟩
  exact ((inv_run hrun).threads t _ hpc).flushing id (by simp [Pc.hasGate])

/-! ## What the manager changes -/

section Record

variable (event : Event Channel) (m : Manager Channel)

@[simp] theorem record_manager : (s.record event m).manager = m := by
  unfold record
  repeat' split
  all_goals rfl

@[simp] theorem record_threads : (s.record event m).threads = s.threads := by
  unfold record
  repeat' split
  all_goals rfl

@[simp] theorem record_channels : (s.record event m).channels = s.channels := by
  unfold record
  repeat' split
  all_goals rfl

/-- A slot that is not new keeps its flags and its stores, and what is saved stays saved. -/
theorem record_old {id : ObjSlotId} (hold : s.manager.slots id ≠ .free) :
    (s.record event m).flags id = s.flags id ∧ (s.record event m).written id = s.written id ∧
      s.saved id ≤ (s.record event m).saved id := by
  unfold record
  split
  · rename_i id' fabric
    split_ifs with hfree
    · have hid : id ≠ id' := by
        rintro rfl
        exact hold hfree
      simp [Function.update_of_ne hid]
    · exact ⟨rfl, rfl, le_rfl⟩
  · split
    · exact ⟨rfl, rfl, le_rfl⟩
    · exact ⟨rfl, rfl, le_rfl⟩
  · split
    · rename_i id' callbacks hrunning
      refine ⟨rfl, rfl, ?_⟩
      show s.saved id ≤ Function.update s.saved id' _ id
      by_cases hid : id = id'
      · subst hid
        rw [Function.update_self]
        exact le_max_left _ _
      · rw [Function.update_of_ne hid]
    · exact ⟨rfl, rfl, le_rfl⟩
  · exact ⟨rfl, rfl, le_rfl⟩

theorem record_upgrade {entry : QueueEntry Channel} (htook : s.manager.worker = .took entry) :
    (s.record .upgrade m).started = s.written entry.slot := by
  simp only [record, htook]

/-- While a task runs, its start does not change. -/
theorem record_started {id : ObjSlotId} {opType : OpType} {callbacks : List Channel}
    (hrunning : s.manager.worker = .running id opType callbacks) :
    (s.record event m).started = s.started := by
  unfold record
  split
  · split_ifs <;> rfl
  · split
    · rename_i entry htook
      rw [hrunning] at htook
      cases htook
    · rfl
  · split <;> rfl
  · rfl

theorem record_success {id : ObjSlotId} (hrunning : s.manager.FlushRunning id) :
    s.started ≤ (s.record (.finish .success) m).saved id := by
  obtain ⟨callbacks, hworker⟩ := hrunning
  simp only [record, hworker, Function.update_self]
  exact le_max_right _ _

end Record

/-! ## Stores that are not written back -/

/-- A flag of the page is set. -/
def Marked (s : WriteBack) (id : ObjSlotId) : Prop := s.flags id &&& BOTH_DIRTY_MASK ≠ 0

/-- A thread has consumed the flags of the slot and is about to queue the write-back. -/
def Carried (s : WriteBack) (id : ObjSlotId) : Prop :=
  ∃ t caller todo, s.threads.lookup t = some (.released caller id todo)

/-- Every store to the slot is written back, or something other than the running write-back
    remembers the slot. -/
def Accounted (s : WriteBack) (id : ObjSlotId) : Prop :=
  s.written id ≤ s.saved id ∨ s.Marked id ∨ s.Carried id ∨ s.manager.FlushPending id

/-- The running write-back started after all stores to the slot. -/
def InProgress (s : WriteBack) (id : ObjSlotId) : Prop :=
  s.manager.FlushRunning id ∧ s.written id ≤ s.started

/-- Every store to a slot that is there is accounted for. -/
def Remembering (s : WriteBack) : Prop :=
  ∀ id, (s.manager.slots id).isLive = true → s.Accounted id ∨ s.InProgress id

/-- A write-back that fails is not the only one to remember its slot. -/
def RemembersFailure (s : WriteBack) (action : Action) : Prop :=
  ∀ outcome id, action = .manager (.finish outcome) → outcome ≠ .success →
    s.manager.FlushRunning id → s.Accounted id

section Remembering

variable {id : ObjSlotId}

theorem Carried.goto (h : s.Carried id) {t : ThreadId} (pc : Pc)
    (hpc : ∀ caller todo, s.threads.lookup t ≠ some (.released caller id todo)) :
    (s.goto t pc).Carried id := by
  obtain ⟨t', caller, todo, hpc'⟩ := h
  refine ⟨t', caller, todo, ?_⟩
  rw [lookup_goto, if_neg, hpc']
  rintro rfl
  exact hpc caller todo hpc'

theorem Carried.exit (h : s.Carried id) {t : ThreadId}
    (hpc : ∀ caller todo, s.threads.lookup t ≠ some (.released caller id todo)) :
    (s.exit t).Carried id := by
  obtain ⟨t', caller, todo, hpc'⟩ := h
  refine ⟨t', caller, todo, ?_⟩
  rw [lookup_exit, if_neg, hpc']
  rintro rfl
  exact hpc caller todo hpc'

/-- The manager moves on, and the slot stays accounted for or its write-back starts. -/
theorem Accounted.step (h : s.Accounted id) (event : Event Channel)
    (hstep : s.manager.Step event s'.manager) (hlive : (s.manager.slots id).isLive = true)
    (hwritten : s'.written id = s.written id) (hsaved : s.saved id ≤ s'.saved id)
    (hflags : s'.flags id = s.flags id) (hcarried : s.Carried id → s'.Carried id)
    (hstarted : event = .upgrade → ∀ entry, s.manager.worker = .took entry → entry.slot = id →
      s'.started = s.written id) :
    s'.Accounted id ∨ s'.InProgress id := by
  rcases h with hsafe | hmarked | hcarries | hpending
  · exact .inl (.inl (by omega))
  · refine .inl (.inr (.inl ?_))
    unfold Marked
    rw [hflags]
    exact hmarked
  · exact .inl (.inr (.inr (.inl (hcarried hcarries))))
  · obtain ⟨fabric, resident, hslot⟩ := SlotMemory.isLive_iff.1 hlive
    rcases hpending.step hstep hslot with hstays | ⟨hevent, ⟨entry, htook, hentry⟩, hrunning⟩
    · exact .inl (.inr (.inr (.inr hstays)))
    · refine .inr ⟨hrunning, ?_⟩
      rw [hstarted hevent entry htook hentry, hwritten]

/-- The same for a step that the threads take alone. -/
theorem Remembering.keep (hr : s.Remembering) (hmanager : s'.manager = s.manager)
    (hstarted : s'.started = s.started) (hsaved : s'.saved = s.saved)
    (hchanged : ∀ id, s'.Marked id ∨ s'.Carried id ∨
      s'.written id = s.written id ∧ s'.flags id = s.flags id ∧ (s.Carried id → s'.Carried id)) :
    s'.Remembering := by
  intro id hlive
  rw [hmanager] at hlive
  rcases hchanged id with hmarked | hcarried | ⟨hwritten, hflags, hcarried⟩
  · exact .inl (.inr (.inl hmarked))
  · exact .inl (.inr (.inr (.inl hcarried)))
  · rcases hr id hlive with hold | ⟨hrunning, hbefore⟩
    · refine hold.step .close ?_ hlive hwritten (by rw [hsaved]) hflags hcarried nofun
      rw [hmanager]
      exact .nothing _
    · refine .inr ⟨?_, ?_⟩
      · rw [hmanager]
        exact hrunning
      · rw [hwritten, hstarted]
        exact hbefore

theorem Remembering.record (hr : s.Remembering) {event : Event Channel} {m : Manager Channel}
    (hcond : s.RemembersFailure (.manager event)) (hstep : s.manager.Step event m) :
    (s.record event m).Remembering := by
  intro id hlive
  rw [record_manager] at hlive
  rcases Manager.isLive_of_step hstep hlive with hwas | ⟨hfree, fabric, rfl⟩
  · obtain ⟨hflags, hwritten, hsaved⟩ := record_old event m (SlotMemory.ne_free hwas)
    have haccounted : s.Accounted id → (s.record event m).Accounted id ∨
        (s.record event m).InProgress id := by
      intro hacc
      refine hacc.step event (by simpa using hstep) hwas hwritten hsaved hflags ?_ ?_
      · rintro ⟨t, caller, todo, hpc⟩
        exact ⟨t, caller, todo, by simpa using hpc⟩
      · rintro rfl entry htook rfl
        exact record_upgrade m htook
    rcases hr id hwas with hacc | ⟨hrunning, hbefore⟩
    · exact haccounted hacc
    · rcases hrunning.step hstep with hstays | ⟨outcome, rfl⟩
      · -- the object is still at work
        refine .inr ⟨by simpa using hstays, ?_⟩
        obtain ⟨callbacks, hworker⟩ := hrunning
        rw [hwritten, record_started event m hworker]
        exact hbefore
      · by_cases hsuccess : outcome = .success
        · subst hsuccess
          refine .inl (.inl ?_)
          rw [hwritten]
          exact hbefore.trans (record_success m hrunning)
        · exact haccounted (hcond outcome id rfl hsuccess hrunning)
  · -- a new slot has no stores
    refine .inl (.inl ?_)
    simp [WriteBack.record, hfree]

theorem marked_of_mark : ∀ flags : BitVec 8, (flags ||| IS_DIRTY_FLAG) &&& BOTH_DIRTY_MASK ≠ 0 := by
  decide

theorem marked_of_inspect : ∀ flags : BitVec 8, flags &&& BOTH_DIRTY_MASK ≠ 0 →
    flushingFlags flags &&& BOTH_DIRTY_MASK ≠ 0 := by
  decide

/-- A thread that is not about to queue a write-back goes on. -/
theorem Remembering.goto (hr : s.Remembering) {t : ThreadId} (pc : Pc)
    (hpc : ∀ caller id todo, s.threads.lookup t ≠ some (.released caller id todo)) :
    (s.goto t pc).Remembering :=
  hr.keep rfl rfl rfl fun id =>
    .inr (.inr ⟨rfl, rfl, fun hcarried => hcarried.goto pc fun caller todo => hpc caller id todo⟩)

theorem Remembering.exit (hr : s.Remembering) {t : ThreadId}
    (hpc : ∀ caller id todo, s.threads.lookup t ≠ some (.released caller id todo)) :
    (s.exit t).Remembering :=
  hr.keep rfl rfl rfl fun id =>
    .inr (.inr ⟨rfl, rfl, fun hcarried => hcarried.exit fun caller todo => hpc caller id todo⟩)

/-- The thread queues the write-back that it carries. -/
theorem Remembering.enqueue (h : s.Inv) (hr : s.Remembering) {t : ThreadId}
    {caller caller' : Caller} {id : ObjSlotId} {todo todo' : List ObjSlotId}
    {callback : Option Channel} {m : Manager Channel} (channels : ℕ)
    (hpc : s.threads.lookup t = some (.released caller id todo))
    (hok : s.manager.step (.enqueueFlush t id callback) = .ok m) :
    ({ s.goto t (.walking caller' todo') with manager := m, channels := channels } :
      WriteBack).Remembering := by
  have hpcOk := h.threads t _ hpc
  have hstep := Manager.step_cases h.manager.indexed hok
  rw [Manager.enqueueFlush_eq (hpcOk.resident id rfl) (hpcOk.calls nofun)] at hok
  obtain rfl := Except.ok.inj hok
  intro id' hlive
  by_cases hid : id' = id
  · subst hid
    exact .inl (.inr (.inr (.inr (.inl ⟨t, _, AList.lookup_insert _, rfl, rfl⟩))))
  · rcases hr id' hlive with hold | ⟨hrunning, hbefore⟩
    · refine hold.step _ hstep hlive rfl le_rfl rfl (fun hcarried => ?_) nofun
      refine hcarried.goto (.walking caller' todo') fun caller'' todo'' hpc' => ?_
      cases hpc.symm.trans hpc'
      exact hid rfl
    · exact .inr ⟨hrunning, hbefore⟩

/-- One action keeps every store remembered. -/
theorem Remembering.change (h : s.Inv) (hr : s.Remembering) {action : Action}
    (hcond : s.RemembersFailure action) (hchange : s.Change action s') : s'.Remembering := by
  -- the thread of an action that is somewhere else
  have hother : ∀ {t pc}, s.threads.lookup t = some pc →
      (∀ caller id todo, pc ≠ .released caller id todo) →
      ∀ caller id todo, s.threads.lookup t ≠ some (.released caller id todo) := by
    intro t pc hpc hne caller id todo hpc'
    exact hne caller id todo (Option.some.inj (hpc.symm.trans hpc'))
  have hidle : ∀ {t}, s.Idle t → ∀ caller id todo,
      s.threads.lookup t ≠ some (.released caller id todo) := by
    intro t hidle caller id todo hpc
    rw [hidle.1] at hpc
    cases hpc
  cases hchange with
  | nothing => exact hr
  | manager hallows hstep => exact hr.record hcond hstep
  | faultIn hidle hstep =>
    intro id hlive
    rcases Manager.isLive_of_step hstep hlive with hwas | ⟨-, fabric, hevent⟩
    · rcases hr id hwas with hold | ⟨hrunning, hbefore⟩
      · exact hold.step _ hstep hwas rfl le_rfl rfl (fun hcarried => hcarried) nofun
      · rcases hrunning.step hstep with hstays | ⟨outcome, hevent⟩
        · exact .inr ⟨hstays, hbefore⟩
        · cases hevent
    · cases hevent
  | store hidle' => exact hr.goto _ (hidle hidle')
  | @mark t id hpc =>
    refine hr.keep rfl rfl rfl fun id' => ?_
    by_cases hid : id' = id
    · subst hid
      refine .inl ?_
      simp only [Marked, Function.update_self]
      exact marked_of_mark _
    · refine .inr (.inr ⟨Function.update_of_ne hid _ _, Function.update_of_ne hid _ _,
        fun hcarried => ?_⟩)
      exact hcarried.exit fun caller todo => hother hpc nofun caller id' todo
  | refresh hidle' => exact hr.goto _ (hidle hidle')
  | flush hidle' => exact hr.goto _ (hidle hidle')
  | skip hpc => exact hr.goto _ (hother hpc nofun)
  | @inspect t caller id todo hpc hcalls hresident hgate hflag =>
    refine hr.keep rfl rfl rfl fun id' => ?_
    by_cases hid : id' = id
    · subst hid
      refine .inl ?_
      simp only [Marked, Function.update_self]
      exact marked_of_inspect _ hflag
    · refine .inr (.inr ⟨rfl, Function.update_of_ne hid _ _, fun hcarried => ?_⟩)
      exact hcarried.goto _ fun caller todo => hother hpc nofun caller id' todo
  | @invalidated t caller id todo hpc =>
    refine hr.keep rfl rfl rfl fun id' => ?_
    by_cases hid : id' = id
    · subst hid
      exact .inr (.inl ⟨t, caller, todo, by simp⟩)
    · refine .inr (.inr ⟨rfl, Function.update_of_ne hid _ _, fun hcarried => ?_⟩)
      exact hcarried.goto _ fun caller todo => hother hpc nofun caller id' todo
  | panicked hpc => exact hr.exit (hother hpc nofun)
  | enqueueRefresh hpc hok => exact Remembering.enqueue h hr s.channels hpc hok
  | enqueueFlush hpc hok => exact Remembering.enqueue h hr (s.channels + 1) hpc hok
  | unwind hpc => exact hr.exit (hother hpc nofun)
  | refreshed hpc => exact hr.exit (hother hpc nofun)
  | walked hpc => exact hr.goto _ (hother hpc nofun)
  | received hpc => exact hr.goto _ (hother hpc nofun)
  | failed _ hpc => exact hr.goto _ (hother hpc nofun)
  | succeeded hpc => exact hr.goto _ (hother hpc nofun)
  | leave hpc => exact hr.exit (hother hpc nofun)

end Remembering

/-- No store, `refresh` or `flush` is in progress. -/
def Quiet (s : WriteBack) : Prop := ∀ t, s.threads.lookup t = none

/-- A flush of the slot is queued, or the worker is at it. -/
def QueuedOrHandled (s : WriteBack) (id : ObjSlotId) : Prop :=
  (∃ entry ∈ s.manager.queue.queue, entry.slot = id ∧ entry.opType = .flush) ∨
  (∃ entry, s.manager.worker = .took entry ∧ entry.slot = id ∧ entry.opType = .flush) ∨
  s.manager.FlushRunning id

/-- With no call in progress, a page with a store that no write-back has saved is flagged, or
    its flush is queued or handled. -/
def Remembered (s : WriteBack) : Prop :=
  s.Quiet → ∀ id, (s.manager.slots id).resident = true → s.saved id < s.written id →
    s.Marked id ∨ s.QueuedOrHandled id

theorem Remembering.remembered (h : s.Inv) (hr : s.Remembering) : s.Remembered := by
  intro hquiet id hresident hunsaved
  rcases hr id (SlotMemory.isLive_of_resident hresident) with
    (hsafe | hmarked | ⟨t, caller, todo, hpc⟩ | hpending) | ⟨hrunning, -⟩
  · exact absurd hsafe (Nat.not_le_of_lt hunsaved)
  · exact .inl hmarked
  · rw [hquiet t] at hpc
    cases hpc
  · rcases hpending with ⟨t, e, hcaller, -, hop⟩ | hqueued | htook
    · exact absurd (hquiet t) (h.flushers t e hcaller hop)
    · exact .inr (.inl hqueued)
    · exact .inr (.inr (.inl htook))
  · exact .inr (.inr (.inr hrunning))

/-- In a run in which no write-back fails for a slot that nothing else remembers, every store
    is remembered until it is written back. -/
theorem written_remembered (queueLimit : ℕ) (actions : List Action)
    (hactions : EveryAction RemembersFailure queueLimit actions)
    (hrun : run queueLimit actions = .ok s) : s.Remembered := by
  have hnew : (new queueLimit).Remembering := by
    intro id hlive
    cases hlive
  obtain ⟨hinv, hr⟩ := run_induction hactions hnew
    (fun hinv hr hcond hchange => Remembering.change hinv hr hcond hchange) hrun
  exact hr.remembered hinv

/-- A page is made and stored to, and a `refresh` queues its write-back. -/
def storeRefresh : List Action :=
  [.manager (.newSlot 1 0), .faultIn 5 1, .manager (.lock 5), .manager .dequeue, .manager .upgrade,
    .manager (.finish .success), .manager .notify, .manager .notify, .store 5 1, .mark 5,
    .refresh 5 [1], .inspect 5, .invalidated 5 false, .enqueue 5, .manager (.lock 5), .walked 5]

/-- The condition holds if the objects never fail. -/
theorem remembersFailure_of_success {queueLimit : ℕ} {actions : List Action}
    (hsuccess : ∀ outcome, .manager (.finish outcome) ∈ actions → outcome = .success) :
    EveryAction RemembersFailure queueLimit actions := by
  rintro before action after rfl s - outcome id rfl hfailed
  exact absurd (hsuccess outcome (by simp)) hfailed

/-- The write-back succeeds, and the page is stored to again while it runs. -/
def storeRefreshStore : List Action :=
  storeRefresh ++ [.manager .dequeue, .manager .upgrade, .store 5 1, .mark 5,
    .manager (.finish .success)]

theorem written_remembered_storeRefreshStore :
    ∃ s, run 4 storeRefreshStore = .ok s ∧ s.saved 1 = 1 ∧ s.written 1 = 2 ∧ s.Remembered := by
  refine ⟨_, rfl, rfl, rfl, written_remembered 4 storeRefreshStore ?_ rfl⟩
  refine remembersFailure_of_success fun outcome hmem => ?_
  simpa [storeRefreshStore, storeRefresh] using hmem

/-- The object returns an error from `fault_out`. -/
def storeRefreshError : List Action :=
  storeRefresh ++ [.manager .dequeue, .manager .upgrade, .manager (.finish .error),
    .manager .notify]

theorem write_back_error_forgets :
    ¬ ∀ queueLimit actions s, run queueLimit actions = .ok s → s.Remembered := by
  intro hclaim
  obtain ⟨s, hrun, hquiet, hresident, hunsaved, hflags, hqueue, hworker⟩ :
      ∃ s, run 4 storeRefreshError = .ok s ∧ s.threads.entries = [] ∧
        (s.manager.slots 1).resident = true ∧ s.saved 1 < s.written 1 ∧
        s.flags 1 &&& BOTH_DIRTY_MASK = 0 ∧ s.manager.queue.queue = [] ∧ s.manager.worker = .idle :=
    ⟨_, rfl, rfl, rfl, by decide, by decide, rfl, rfl⟩
  have hnone : s.Quiet := by
    intro t
    rw [AList.lookup_eq_none, AList.mem_keys]
    simp [AList.keys, hquiet]
  rcases hclaim 4 storeRefreshError s hrun hnone 1 hresident hunsaved with
    hmarked | ⟨entry, hentry, -⟩ | ⟨entry, htook, -⟩ | ⟨callbacks, hrunning⟩
  · exact hmarked hflags
  · rw [hqueue] at hentry
    cases hentry
  · rw [hworker] at htook
    cases htook
  · rw [hworker] at hrunning
    cases hrunning

end WriteBack

end RapidArm.Objects
