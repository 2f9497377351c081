import RapidArm.Objects.Callbacks
import RapidArm.Mmu.PageTable

/-!
# Faulting all object pages in

`IoMMU::fault_in_all_memory_objects` (`io-mmu/src/lib.rs`, lines 1294–1308) over the object
manager: for every entry of the page table `load_obj_memory_sync_inner`
(`io-mmu/src/page_table.rs`, lines 607–639) asks for the page of its slot with
`enqueue_init`, if it is not there, and gets a channel; then the channels are received from
in this order, up to the first failure. The MMU is borrowed, and its table and slots are
there, as long as the call lasts. All else goes on meanwhile: other calls, on the same MMU
or on others with the same slots, and the worker.

A channel gets what its callback is told; here it is the callback itself.

Results:
* `fault_in_complete`: when a call returns `Ok`, `get_page` succeeds for every object page of
  the MMU, and the page was made by the one `fault_in_exclusive` of its slot that succeeded.
-/

namespace RapidArm.Objects

open RapidArm.Lib RapidArm.Mmu

variable {π : Type}

/-! ## State -/

/-- The slots of the entries that are backed by an object. -/
def objectSlots (entries : List (PageNumber × PageEntry)) : List ObjSlotId :=
  entries.filterMap fun p =>
    match p.2.source with
    | .object slot _ => some slot
    | _ => none

theorem objectSlots_cons (n : PageNumber) (entry : PageEntry)
    (rest : List (PageNumber × PageEntry)) :
    objectSlots ((n, entry) :: rest) =
      match entry.source with
      | .object slot _ => slot :: objectSlots rest
      | _ => objectSlots rest := by
  unfold objectSlots
  rw [List.filterMap_cons]
  cases entry.source <;> rfl

theorem mem_objectSlots {entries : List (PageNumber × PageEntry)} {n : PageNumber} {slot : SlotId}
    {shared : Bool} {prot : MemProt} (h : (n, ⟨.object slot shared, prot⟩) ∈ entries) :
    slot ∈ objectSlots entries :=
  List.mem_filterMap.2 ⟨_, h, rfl⟩

/-- Where a thread is in `fault_in_all_memory_objects`, with the page table and the pending
    jobs, each with its slot. -/
inductive FaultPc
  /-- Before the next entry of the page table. -/
  | walking (table : PageTable) (todo : List (PageNumber × PageEntry))
    (pending : List (ℕ × ObjSlotId))
  /-- After `slot.page.get()` was `None`, before `enqueue_init`. -/
  | missing (table : PageTable) (id : ObjSlotId) (todo : List (PageNumber × PageEntry))
    (pending : List (ℕ × ObjSlotId))
  /-- Before the next `recv`. -/
  | waiting (table : PageTable) (pending : List (ℕ × ObjSlotId))
  | returning (table : PageTable) (ok : Bool)

/-- The page table that the thread has borrowed. -/
def FaultPc.table : FaultPc → PageTable
  | .walking table _ _ => table
  | .missing table _ _ _ => table
  | .waiting table _ => table
  | .returning table _ => table

/-- The object manager and the threads in `fault_in_all_memory_objects`. -/
structure FaultIn (π : Type) where
  history : History π
  threads : AList fun _ : ThreadId => FaultPc

/-- An action of a thread, or of anything else. -/
inductive FaultAction (π : Type)
  | other (event : HistoryEvent π)
  /-- The call of `fault_in_all_memory_objects`. -/
  | call (t : ThreadId) (table : PageTable)
  /-- `init_page_dyn` of the next entry up to `enqueue_init`. -/
  | inspect (t : ThreadId)
  | enqueue (t : ThreadId)
  /-- The walk is over. -/
  | walked (t : ThreadId)
  /-- `recv` of the next pending job. -/
  | receive (t : ThreadId)
  /-- `recv` finds that the worker is gone. -/
  | disconnected (t : ThreadId)
  | leave (t : ThreadId)

namespace FaultIn

/-- The start, with no slots. -/
def new (queueLimit : ℕ) : FaultIn π where
  history := .new queueLimit
  threads := ∅

/-! ## Steps -/

/-- Some thread has borrowed an MMU with the slot. -/
def borrowed (s : FaultIn π) (id : ObjSlotId) : Bool :=
  s.threads.entries.any fun p => (objectSlots p.2.table.entries).contains id

/-- A thread in the call does nothing else, and a slot of a borrowed MMU is not dropped. -/
def allows (s : FaultIn π) : HistoryEvent π → Bool
  | .enqueue t _ _ _ => (s.threads.lookup t).isNone
  | .dropSlot id => !s.borrowed id
  | _ => true

/-- The thread goes on. -/
def goto (s : FaultIn π) (t : ThreadId) (pc : FaultPc) : FaultIn π :=
  { s with threads := s.threads.insert t pc }

/-- `init_page_dyn` up to `enqueue_init`. -/
def inspectEntry (s : FaultIn π) (t : ThreadId) (table : PageTable) (entry : PageEntry)
    (todo : List (PageNumber × PageEntry)) (pending : List (ℕ × ObjSlotId)) : FaultIn π :=
  match entry.source with
  | .object slot _ =>
    if (s.history.manager.slots slot).resident then s.goto t (.walking table todo pending)
    else s.goto t (.missing table slot todo pending)
  | _ => s.goto t (.walking table todo pending)

/-- `recv` of the next pending job. -/
def receiveJob (s : FaultIn π) (t : ThreadId) (table : PageTable) (pending : List (ℕ × ObjSlotId)) :
    FaultIn π :=
  match pending with
  | [] => s.goto t (.returning table true)
  | (c, _) :: rest =>
    if (c, .succeeded) ∈ s.history.manager.ended then s.goto t (.waiting table rest)
    else if (c, .failed) ∈ s.history.manager.ended ∨ (c, .dropped) ∈ s.history.manager.ended then
      s.goto t (.returning table false)
    else s

/-- One action. An action that cannot happen now changes nothing. -/
def step (s : FaultIn π) : FaultAction π → Except Failure (FaultIn π)
  | .other event =>
    if s.allows event then do return { s with history := ← s.history.step event } else .ok s
  | .call t table =>
    if s.threads.lookup t = none ∧ s.history.manager.callers.lookup t = none ∧
        (objectSlots table.entries).all fun id => (s.history.manager.slots id).isLive then
      .ok (s.goto t (.walking table table.entries []))
    else .ok s
  | .inspect t =>
    match s.threads.lookup t, s.history.manager.callers.lookup t with
    | some (.walking table ((_, entry) :: todo) pending), none =>
      .ok (s.inspectEntry t table entry todo pending)
    | _, _ => .ok s
  | .enqueue t =>
    match s.threads.lookup t with
    | some (.missing table id todo pending) => do
      let history ← s.history.step (.enqueue t id false true)
      return { s.goto t (.walking table todo (pending ++ [(s.history.requests.length, id)])) with
        history := history }
    | _ => .ok s
  | .walked t =>
    match s.threads.lookup t, s.history.manager.callers.lookup t with
    | some (.walking table [] pending), none => .ok (s.goto t (.waiting table pending))
    | _, _ => .ok s
  | .receive t =>
    match s.threads.lookup t with
    | some (.waiting table pending) => .ok (s.receiveJob t table pending)
    | _ => .ok s
  | .disconnected t =>
    match s.threads.lookup t with
    | some (.waiting table _) => .ok (s.goto t (.returning table false))
    | _ => .ok s
  | .leave t =>
    match s.threads.lookup t with
    | some (.returning _ _) => .ok { s with threads := s.threads.erase t }
    | _ => .ok s

/-- A run from the start. -/
def run (queueLimit : ℕ) (actions : List (FaultAction π)) : Except Failure (FaultIn π) :=
  actions.foldlM step (new queueLimit)

/-! ## What an action does -/

/-- The actions that do something, each with when it can happen and the state after it. -/
inductive Change (s : FaultIn π) : FaultAction π → FaultIn π → Prop
  | nothing (action : FaultAction π) : Change s action s
  | other {event : HistoryEvent π} {history : History π} (hallows : s.allows event = true)
    (hstep : s.history.step event = .ok history) :
    Change s (.other event) { s with history := history }
  | call {t : ThreadId} {table : PageTable} (hcalls : s.history.manager.callers.lookup t = none)
    (hlive : ∀ id ∈ objectSlots table.entries, (s.history.manager.slots id).isLive = true) :
    Change s (.call t table) (s.goto t (.walking table table.entries []))
  | skip {t : ThreadId} {table : PageTable} {n : PageNumber} {entry : PageEntry}
    {todo : List (PageNumber × PageEntry)} {pending : List (ℕ × ObjSlotId)}
    (hpc : s.threads.lookup t = some (.walking table ((n, entry) :: todo) pending))
    (hskip : ∀ slot shared, entry.source = .object slot shared →
      (s.history.manager.slots slot).resident = true) :
    Change s (.inspect t) (s.goto t (.walking table todo pending))
  | missing {t : ThreadId} {table : PageTable} {n : PageNumber} {entry : PageEntry}
    {todo : List (PageNumber × PageEntry)} {pending : List (ℕ × ObjSlotId)} {slot : SlotId}
      {shared : Bool}
    (hpc : s.threads.lookup t = some (.walking table ((n, entry) :: todo) pending))
    (hcalls : s.history.manager.callers.lookup t = none) (hsource : entry.source =
      .object slot shared) :
    Change s (.inspect t) (s.goto t (.missing table slot todo pending))
  | enqueue {t : ThreadId} {table : PageTable} {id : ObjSlotId}
    {todo : List (PageNumber × PageEntry)} {pending : List (ℕ × ObjSlotId)} {history : History π}
    (hpc : s.threads.lookup t = some (.missing table id todo pending))
    (hstep : s.history.step (.enqueue t id false true) = .ok history) :
    Change s (.enqueue t)
      { s.goto t (.walking table todo (pending ++ [(s.history.requests.length, id)])) with
        history := history }
  | walked {t : ThreadId} {table : PageTable} {pending : List (ℕ × ObjSlotId)}
    (hpc : s.threads.lookup t = some (.walking table [] pending))
    (hcalls : s.history.manager.callers.lookup t = none) :
    Change s (.walked t) (s.goto t (.waiting table pending))
  | received {t : ThreadId} {table : PageTable} {c : ℕ} {id : ObjSlotId}
    {rest : List (ℕ × ObjSlotId)}
    (hpc : s.threads.lookup t = some (.waiting table ((c, id) :: rest)))
    (hsucceeded : (c, .succeeded) ∈ s.history.manager.ended) :
    Change s (.receive t) (s.goto t (.waiting table rest))
  | complete {t : ThreadId}
    {table : PageTable} (hpc : s.threads.lookup t = some (.waiting table [])) :
    Change s (.receive t) (s.goto t (.returning table true))
  | failed (action : FaultAction π) {t : ThreadId} {table : PageTable}
    {pending : List (ℕ × ObjSlotId)} (hpc : s.threads.lookup t = some (.waiting table pending)) :
    Change s action (s.goto t (.returning table false))
  | leave {t : ThreadId} {table : PageTable} {ok : Bool}
    (hpc : s.threads.lookup t = some (.returning table ok)) :
    Change s (.leave t) { s with threads := s.threads.erase t }

variable {s s' : FaultIn π}

theorem change_of_step {action : FaultAction π} (hok : s.step action = .ok s') :
    s.Change action s' := by
  cases action with
  | other event =>
    simp only [step] at hok
    split_ifs at hok with hallows
    · obtain ⟨history, hstep, hok⟩ := bind_eq_ok.1 hok
      obtain rfl := Except.ok.inj hok
      exact .other hallows hstep
    · obtain rfl := Except.ok.inj hok
      exact .nothing _
  | call t table =>
    simp only [step] at hok
    split_ifs at hok with hcall
    · obtain rfl := Except.ok.inj hok
      exact .call hcall.2.1 (List.all_eq_true.1 hcall.2.2)
    · obtain rfl := Except.ok.inj hok
      exact .nothing _
  | inspect t =>
    simp only [step] at hok
    split at hok
    · rename_i table n entry todo pending hpc hcalls
      obtain rfl := Except.ok.inj hok
      unfold inspectEntry
      split
      · rename_i slot shared hsource
        split_ifs with hresident
        · refine .skip hpc fun slot' shared' hsource' => ?_
          rw [hsource] at hsource'
          cases hsource'
          exact hresident
        · exact .missing hpc hcalls hsource
      · rename_i hnot
        exact .skip hpc fun slot shared hsource => absurd hsource (hnot slot shared)
    · obtain rfl := Except.ok.inj hok
      exact .nothing _
  | enqueue t =>
    simp only [step] at hok
    split at hok
    · rename_i hpc
      obtain ⟨history, hstep, hok⟩ := bind_eq_ok.1 hok
      obtain rfl := Except.ok.inj hok
      exact .enqueue hpc hstep
    · obtain rfl := Except.ok.inj hok
      exact .nothing _
  | walked t =>
    simp only [step] at hok
    split at hok
    · rename_i hpc hcalls
      obtain rfl := Except.ok.inj hok
      exact .walked hpc hcalls
    · obtain rfl := Except.ok.inj hok
      exact .nothing _
  | receive t =>
    simp only [step] at hok
    split at hok
    · rename_i table pending hpc
      obtain rfl := Except.ok.inj hok
      unfold receiveJob
      split
      · exact .complete hpc
      · split_ifs with hsucceeded hfailed
        · exact .received hpc hsucceeded
        · exact .failed _ hpc
        · exact .nothing _
    · obtain rfl := Except.ok.inj hok
      exact .nothing _
  | disconnected t =>
    simp only [step] at hok
    split at hok
    · rename_i hpc
      obtain rfl := Except.ok.inj hok
      exact .failed _ hpc
    · obtain rfl := Except.ok.inj hok
      exact .nothing _
  | leave t =>
    simp only [step] at hok
    split at hok
    · rename_i hpc
      obtain rfl := Except.ok.inj hok
      exact .leave hpc
    · obtain rfl := Except.ok.inj hok
      exact .nothing _

end FaultIn

/-! ## Jobs -/

namespace History

variable {s s' : History π}

/-- The job is that of an `Init` of the slot, and the slot is still there. -/
def JobOf (s : History π) (c : ℕ) (id : ObjSlotId) : Prop :=
  ∃ r, s.requests[c]? = some r ∧ r.slot = id ∧ r.isFlush = false ∧ s.Kept r

/-- What holds of a thread that has still to come to `todo`: every other object page is there, or
    on its way. -/
structure Sound (s : History π) (table : PageTable) (todo : List ObjSlotId)
    (pending : List (ℕ × ObjSlotId)) : Prop where
  ahead : ∀ id ∈ todo, id ∈ objectSlots table.entries
  jobs : ∀ c id, (c, id) ∈ pending → id ∈ objectSlots table.entries ∧ s.JobOf c id
  covered : ∀ id ∈ objectSlots table.entries,
    id ∈ todo ∨ (s.manager.slots id).resident = true ∨ ∃ c, (c, id) ∈ pending

/-- What holds of a thread. -/
def PcSound (s : History π) : FaultPc → Prop
  | .walking table todo pending => s.Sound table (objectSlots todo) pending
  | .missing table id todo pending => s.Sound table (id :: objectSlots todo) pending
  | .waiting table pending => s.Sound table [] pending
  | .returning table ok =>
    ok = true → ∀ id ∈ objectSlots table.entries, (s.manager.slots id).resident = true

/-- What a thread relies on stays, as long as the slots of its MMU are not dropped. -/
theorem Sound.after (h : s.Inv) {event : HistoryEvent π} (hstep : s.step event = .ok s')
    {table : PageTable} {todo : List ObjSlotId} {pending : List (ℕ × ObjSlotId)}
    (hsound : s.Sound table todo pending)
    (hlive : ∀ id ∈ objectSlots table.entries, (s.manager.slots id).isLive = true)
    (hdrop : ∀ id ∈ objectSlots table.entries, event ≠ .dropSlot id) :
    s'.Sound table todo pending where
  ahead := hsound.ahead
  jobs := by
    intro c id hmem
    obtain ⟨hid, r, hr, rfl, hinit, hkept⟩ := hsound.jobs c id hmem
    refine ⟨hid, r, ?_, rfl, hinit, h.kept_after hstep hkept (hdrop r.slot hid)⟩
    exact getElem?_of_isPrefix (requests_after hstep) hr
  covered := by
    intro id hid
    rcases hsound.covered id hid with htodo | hresident | hpending
    · exact .inl htodo
    · exact .inr (.inl ((h.live_after hstep (hlive id hid) (hdrop id hid)).2 hresident))
    · exact .inr (.inr hpending)

theorem PcSound.after (h : s.Inv) {event : HistoryEvent π} (hstep : s.step event = .ok s')
    {pc : FaultPc} (hsound : s.PcSound pc)
    (hlive : ∀ id ∈ objectSlots pc.table.entries, (s.manager.slots id).isLive = true)
    (hdrop : ∀ id ∈ objectSlots pc.table.entries, event ≠ .dropSlot id) : s'.PcSound pc := by
  cases pc with
  | walking table todo pending => exact Sound.after h hstep hsound hlive hdrop
  | missing table id todo pending => exact Sound.after h hstep hsound hlive hdrop
  | waiting table pending => exact Sound.after h hstep hsound hlive hdrop
  | returning table ok =>
    intro hok id hid
    exact (h.live_after hstep (hlive id hid) (hdrop id hid)).2 (hsound hok id hid)

/-- A pending job that has succeeded: the page is there. -/
theorem JobOf.resident (h : s.Tracked False) {c : ℕ} {id : ObjSlotId} (hjob : s.JobOf c id)
    (hsucceeded : (c, .succeeded) ∈ s.manager.ended) : (s.manager.slots id).resident = true := by
  obtain ⟨r, hr, rfl, hinit, hkept⟩ := hjob
  have hmeant : s.Meant r true := h.good c r _ hr hkept (.ended hsucceeded)
  unfold Meant at hmeant
  dsimp only at hmeant
  rw [if_neg (by rw [hinit]; nofun)] at hmeant
  exact hmeant

/-- A thread that asks for the page of a slot: its job is the next request. -/
theorem jobOf_enqueue (h : s.Inv) {t : ThreadId} {id : ObjSlotId}
    (hlive : (s.manager.slots id).isLive = true) (hnone : s.manager.callers.lookup t = none)
    (hstep : s.step (.enqueue t id false true) = .ok s') :
    s'.JobOf s.requests.length id := by
  have haccepts : s.manager.accepts t id = true := by
    unfold Manager.accepts
    rw [hlive, hnone]
    rfl
  have hkept : s.Kept (s.request id false) := ⟨hlive, rfl⟩
  refine ⟨s.request id false, ?_, rfl, rfl, h.kept_after hstep hkept nofun⟩
  obtain ⟨m, hm, rfl⟩ := step_eq hstep
  simp [record, haccepts]

/-- The next entry is no object page, or its page is there. -/
theorem Sound.skip {table : PageTable} {n : PageNumber} {entry : PageEntry}
    {todo : List (PageNumber × PageEntry)} {pending : List (ℕ × ObjSlotId)}
    (h : s.Sound table (objectSlots ((n, entry) :: todo)) pending)
    (hskip : ∀ slot shared, entry.source = .object slot shared →
      (s.manager.slots slot).resident = true) :
    s.Sound table (objectSlots todo) pending := by
  rw [objectSlots_cons] at h
  cases hsource : entry.source with
  | object slot shared =>
    rw [hsource] at h
    refine ⟨fun id hid => h.ahead id (List.mem_cons_of_mem _ hid), h.jobs, fun id hid => ?_⟩
    rcases h.covered id hid with htodo | hcovered
    · rcases List.mem_cons.1 htodo with rfl | hrest
      · exact .inr (.inl (hskip id shared hsource))
      · exact .inl hrest
    · exact .inr hcovered
  | shared page =>
    rw [hsource] at h
    exact h
  | priv page writeProtected =>
    rw [hsource] at h
    exact h

/-- The page of the next slot is asked for. -/
theorem Sound.enqueue {table : PageTable} {c : ℕ} {id : ObjSlotId} {todo : List ObjSlotId}
    {pending : List (ℕ × ObjSlotId)} (h : s.Sound table (id :: todo) pending)
    (hjob : s.JobOf c id) :
    s.Sound table todo (pending ++ [(c, id)]) where
  ahead := fun id' hid' => h.ahead id' (List.mem_cons_of_mem _ hid')
  jobs := by
    intro c' id' hmem
    rcases List.mem_append.1 hmem with hold | hnew
    · exact h.jobs c' id' hold
    · obtain ⟨rfl, rfl⟩ := Prod.mk.inj (List.mem_singleton.1 hnew)
      exact ⟨h.ahead id' List.mem_cons_self, hjob⟩
  covered := by
    intro id' hid'
    rcases h.covered id' hid' with htodo | hresident | ⟨c', hpending⟩
    · rcases List.mem_cons.1 htodo with rfl | hrest
      · exact .inr (.inr ⟨c, List.mem_append_right _ List.mem_cons_self⟩)
      · exact .inl hrest
    · exact .inr (.inl hresident)
    · exact .inr (.inr ⟨c', List.mem_append_left _ hpending⟩)

/-- The next pending job has succeeded. -/
theorem Sound.received {table : PageTable} {c : ℕ} {id : ObjSlotId} {todo : List ObjSlotId}
    {pending : List (ℕ × ObjSlotId)} (h : s.Sound table todo ((c, id) :: pending))
    (hresident : (s.manager.slots id).resident = true) : s.Sound table todo pending where
  ahead := h.ahead
  jobs := fun c' id' hmem => h.jobs c' id' (List.mem_cons_of_mem _ hmem)
  covered := by
    intro id' hid'
    rcases h.covered id' hid' with htodo | hres | ⟨c', hpending⟩
    · exact .inl htodo
    · exact .inr (.inl hres)
    · rcases List.mem_cons.1 hpending with heq | hrest
      · obtain ⟨-, rfl⟩ := Prod.mk.inj heq
        exact .inr (.inl hresident)
      · exact .inr (.inr ⟨c', hrest⟩)

end History

namespace FaultIn

variable {s s' : FaultIn π}

/-- What holds between any two actions. -/
structure Inv (s : FaultIn π) : Prop where
  tracked : s.history.Tracked False
  live : ∀ t pc, s.threads.lookup t = some pc →
    ∀ id ∈ objectSlots pc.table.entries, (s.history.manager.slots id).isLive = true
  calls : ∀ t pc, s.threads.lookup t = some pc →
    (∀ table todo pending, pc ≠ .walking table todo pending) →
    s.history.manager.callers.lookup t = none
  sound : ∀ t pc, s.threads.lookup t = some pc → s.history.PcSound pc

theorem inv_new (queueLimit : ℕ) : (new queueLimit : FaultIn π).Inv where
  tracked := History.tracked_new queueLimit
  live := fun _ _ hpc => by cases hpc
  calls := fun _ _ hpc => by cases hpc
  sound := fun _ _ hpc => by cases hpc

theorem borrowed_of_mem {id : ObjSlotId} {t : ThreadId} {pc : FaultPc}
    (hpc : s.threads.lookup t = some pc) (hid : id ∈ objectSlots pc.table.entries) :
    s.borrowed id = true := by
  unfold borrowed
  rw [List.any_eq_true]
  exact ⟨⟨t, pc⟩, AList.mem_lookup_iff.1 hpc, by simpa using hid⟩

/-- A thread goes on, in a state that is right for it. -/
theorem Inv.goto (h : s.Inv) {t : ThreadId} {pc : FaultPc}
    (hlive : ∀ id ∈ objectSlots pc.table.entries, (s.history.manager.slots id).isLive = true)
    (hcalls : s.history.manager.callers.lookup t = none ∨
      ∃ table todo pending, pc = .walking table todo pending)
    (hsound : s.history.PcSound pc) : (s.goto t pc).Inv := by
  have hlookup : ∀ t' pc', (s.goto t pc).threads.lookup t' = some pc' →
      t' = t ∧ pc' = pc ∨ s.threads.lookup t' = some pc' := by
    intro t' pc' hpc'
    rw [show (s.goto t pc).threads.lookup t' = _ from lookup_insert_if s.threads t t' pc] at hpc'
    split_ifs at hpc' with ht
    · exact .inl ⟨ht, (Option.some.inj hpc').symm⟩
    · exact .inr hpc'
  refine ⟨h.tracked, fun t' pc' hpc' => ?_, fun t' pc' hpc' => ?_, fun t' pc' hpc' => ?_⟩
  · rcases hlookup t' pc' hpc' with ⟨rfl, rfl⟩ | hold
    · exact hlive
    · exact h.live t' pc' hold
  · rcases hlookup t' pc' hpc' with ⟨rfl, rfl⟩ | hold
    · intro hwalking
      rcases hcalls with hnone | ⟨table, todo, pending, hpc⟩
      · exact hnone
      · exact absurd hpc (hwalking table todo pending)
    · exact h.calls t' pc' hold
  · rcases hlookup t' pc' hpc' with ⟨rfl, rfl⟩ | hold
    · exact hsound
    · exact h.sound t' pc' hold

/-- A thread in the call goes on with it. -/
theorem Inv.advance (h : s.Inv) {t : ThreadId} {pc pc' : FaultPc}
    (hpc : s.threads.lookup t = some pc) (htable : pc'.table = pc.table)
    (hcalls : s.history.manager.callers.lookup t = none ∨
      ∃ table todo pending, pc' = .walking table todo pending)
    (hsound : s.history.PcSound pc') : (s.goto t pc').Inv := by
  refine h.goto ?_ hcalls hsound
  rw [htable]
  exact h.live t pc hpc

/-- The history goes on, and a thread in the call does not mind. -/
theorem Inv.thread_after (h : s.Inv) {event : HistoryEvent π} {history : History π}
    (hstep : s.history.step event = .ok history)
    (hdrop : ∀ id, event = .dropSlot id → s.borrowed id = false) {t : ThreadId} {pc : FaultPc}
    (hpc : s.threads.lookup t = some pc) :
    (∀ id ∈ objectSlots pc.table.entries, (history.manager.slots id).isLive = true) ∧
      history.PcSound pc ∧
      ((∀ table todo pending, pc ≠ .walking table todo pending) →
        (∀ id isFlush notify, event ≠ .enqueue t id isFlush notify) →
        history.manager.callers.lookup t = none) := by
  have hkept : ∀ id ∈ objectSlots pc.table.entries, event ≠ .dropSlot id := by
    rintro id hid rfl
    have hfree := hdrop id rfl
    rw [borrowed_of_mem hpc hid] at hfree
    cases hfree
  refine ⟨fun id hid => ?_, (h.sound t pc hpc).after h.tracked.inv hstep (h.live t pc hpc) hkept,
    fun hnot hother => ?_⟩
  · exact (h.tracked.inv.live_after hstep (h.live t pc hpc id hid) (hkept id hid)).1
  · cases hcaller : history.manager.callers.lookup t with
    | none => rfl
    | some e =>
      exfalso
      obtain ⟨m, hm, rfl⟩ := History.step_eq hstep
      rw [History.record_manager] at hcaller
      have henqueue : ∀ id callback, ¬ (s.history.managerEvent event = .enqueueInit t id callback ∨
          s.history.managerEvent event = .enqueueFlush t id callback) := by
        intro id callback hevent
        obtain ⟨isFlush, notify, henqueue⟩ := History.eq_enqueue hevent
        exact hother id isFlush notify henqueue
      rcases Manager.callers_step (Manager.step_cases h.tracked.inv.manager.indexed hm) hcaller with
        hwas | ⟨id, callback, hevent, -⟩ | ⟨id, callback, hevent⟩
      · rw [h.calls t pc hpc hnot] at hwas
        cases hwas
      · exact henqueue id callback (.inl hevent)
      · exact henqueue id callback (.inr hevent)

/-! ## Steps -/

theorem Inv.change (h : s.Inv) {action : FaultAction π} (hchange : s.Change action s') :
    s'.Inv := by
  cases hchange with
  | nothing => exact h
  | @other event history hallows hstep =>
    have hafter := fun t pc (hpc : s.threads.lookup t = some pc) => h.thread_after hstep (by
      rintro id rfl
      simpa [allows] using hallows) hpc
    refine ⟨h.tracked.step nofun hstep, fun t pc hpc => (hafter t pc hpc).1,
      fun t pc hpc hnot => ?_,
      fun t pc hpc => (hafter t pc hpc).2.1⟩
    refine (hafter t pc hpc).2.2 hnot ?_
    rintro id isFlush notify rfl
    have hnone : s.threads.lookup t = none := by simpa [allows] using hallows
    rw [show s.threads.lookup t = some pc from hpc] at hnone
    cases hnone
  | call hcalls hlive =>
    refine h.goto hlive (.inl hcalls) ⟨fun id hid => hid, fun _ _ hmem => ?_,
      fun id hid => .inl hid⟩
    cases hmem
  | @skip t table n entry todo pending hpc hskip =>
    have hsound : s.history.Sound table (objectSlots ((n, entry) :: todo)) pending :=
      h.sound t _ hpc
    exact h.advance hpc rfl (.inr ⟨_, _, _, rfl⟩) (hsound.skip hskip)
  | @missing t table n entry todo pending slot shared hpc hcalls hsource =>
    have hsound : s.history.Sound table (objectSlots ((n, entry) :: todo)) pending :=
      h.sound t _ hpc
    rw [objectSlots_cons, hsource] at hsound
    exact h.advance hpc rfl (.inl hcalls) hsound
  | @enqueue t table id todo pending history hpc hstep =>
    have hsound : s.history.Sound table (id :: objectSlots todo) pending := h.sound t _ hpc
    have hnone := h.calls t _ hpc nofun
    have hlive := h.live t _ hpc
    have hjob :=
      History.jobOf_enqueue h.tracked.inv
        (hlive id (hsound.ahead id List.mem_cons_self)) hnone hstep
    have hafter :=
      fun t' pc (hpc' : s.threads.lookup t' = some pc) => h.thread_after hstep nofun hpc'
    have hsound' : history.Sound table (id :: objectSlots todo) pending := (hafter t _ hpc).2.1
    have hlookup : ∀ t' pc, (s.threads.insert t
        (.walking table todo (pending ++ [(s.history.requests.length, id)]))).lookup t' = some pc →
        t' = t ∧ pc = .walking table todo (pending ++ [(s.history.requests.length, id)]) ∨
          t' ≠ t ∧ s.threads.lookup t' = some pc := by
      intro t' pc hpc'
      rw [lookup_insert_if] at hpc'
      split_ifs at hpc' with ht
      · exact .inl ⟨ht, (Option.some.inj hpc').symm⟩
      · exact .inr ⟨ht, hpc'⟩
    refine ⟨h.tracked.step nofun hstep, fun t' pc hpc' => ?_, fun t' pc hpc' hnot => ?_,
      fun t' pc hpc' => ?_⟩
    · rcases hlookup t' pc hpc' with ⟨rfl, rfl⟩ | ⟨-, hold⟩
      · exact (hafter t' _ hpc).1
      · exact (hafter t' pc hold).1
    · rcases hlookup t' pc hpc' with ⟨rfl, rfl⟩ | ⟨ht, hold⟩
      · exact absurd rfl (hnot _ _ _)
      · refine (hafter t' pc hold).2.2 hnot ?_
        rintro _ _ _ ⟨⟩
        exact ht rfl
    · rcases hlookup t' pc hpc' with ⟨rfl, rfl⟩ | ⟨-, hold⟩
      · exact hsound'.enqueue hjob
      · exact (hafter t' pc hold).2.1
  | @walked t table pending hpc hcalls =>
    have hsound : s.history.Sound table [] pending := h.sound t _ hpc
    exact h.advance hpc rfl (.inl hcalls) hsound
  | @received t table c id rest hpc hsucceeded =>
    have hsound : s.history.Sound table [] ((c, id) :: rest) := h.sound t _ hpc
    refine h.advance hpc rfl (.inl (h.calls t _ hpc nofun)) ?_
    exact hsound.received ((hsound.jobs c id List.mem_cons_self).2.resident h.tracked hsucceeded)
  | @complete t table hpc =>
    have hsound : s.history.Sound table [] [] := h.sound t _ hpc
    refine h.advance hpc rfl (.inl (h.calls t _ hpc nofun)) fun _ id hid => ?_
    rcases hsound.covered id hid with htodo | hresident | ⟨c, hpending⟩
    · cases htodo
    · exact hresident
    · cases hpending
  | @failed _ t table pending hpc => exact h.advance hpc rfl (.inl (h.calls t _ hpc nofun)) nofun
  | @leave t table ok hpc =>
    have hlookup : ∀ t' pc, (s.threads.erase t).lookup t' = some pc →
        s.threads.lookup t' = some pc := by
      intro t' pc hpc'
      rw [lookup_erase_if] at hpc'
      split_ifs at hpc'
      exact hpc'
    exact ⟨h.tracked, fun t' pc hpc' => h.live t' pc (hlookup t' pc hpc'),
      fun t' pc hpc' => h.calls t' pc (hlookup t' pc hpc'), fun t' pc hpc' =>
        h.sound t' pc (hlookup t' pc hpc')⟩

/-! ## Runs -/

theorem inv_run {queueLimit : ℕ} {actions : List (FaultAction π)}
    (hrun : run queueLimit actions = .ok s) :
    s.Inv :=
  (everyCall_trivial _ _).invariant (inv_new queueLimit) (fun _ _ _ h _ hok =>
    h.change (change_of_step hok)) hrun

end FaultIn

/-- The heap that the page tables point to has the pages of the slots. -/
def History.Represents (s : History π) (h : Heap) : Prop :=
  ∀ id, (s.manager.slots id).resident = true →
    ∃ page host, h.residentPage id = some page ∧ h.hostOf page = some host

theorem History.Represents.getPage {s : History π} {h : Heap} (hrep : s.Represents h)
    {table : PageTable} {n : PageNumber} {slot : SlotId} {shared : Bool} {prot : MemProt}
    (hentry : (n, ⟨.object slot shared, prot⟩) ∈ table.entries)
    (hresident : (s.manager.slots slot).resident = true) :
    ∃ page, table.getPage h n = .ok page := by
  obtain ⟨page, host, hpage, hhost⟩ := hrep slot hresident
  unfold PageTable.getPage
  rw [PageTable.get?_of_mem_entries hentry]
  simp only [Option.bind_some, PageEntry.asPage, PageSource.page?, hpage, hhost,
    Option.bind_eq_bind]
  exact ⟨_, rfl⟩

/-- The page of a slot was made by the one call that succeeded, and held what that call wrote. -/
theorem History.Inv.madeOnce {s : History π} (h : s.Inv) {id : ObjSlotId}
    (hresident : (s.manager.slots id).resident = true) :
    ∃ call, (s.calls id).filter (·.madePage) = [call] ∧ call.source = s.sources id ∧
      s.contents id = some call.content := by
  obtain ⟨hsome, hmade⟩ := h.pages id (SlotMemory.isLive_of_resident hresident)
  obtain ⟨content, hcontent⟩ := Option.isSome_iff_exists.1 (hsome.symm.trans hresident)
  rw [hcontent] at hmade
  obtain ⟨call, hfilter, hcall⟩ := List.map_eq_singleton_iff.1 hmade
  have hmem : call ∈ s.calls id :=
    List.mem_of_mem_filter (by rw [hfilter]; exact List.mem_singleton_self call)
  exact ⟨call, hfilter, h.sources id call hmem, by rw [hcontent, hcall]⟩

namespace FaultIn

variable {s : FaultIn π}

/-- Whatever other threads, the worker, the objects and the owners of the slots do meanwhile. -/
theorem fault_in_complete (queueLimit : ℕ) (actions : List (FaultAction π))
    (hrun : run queueLimit actions = .ok s) {t : ThreadId} {table : PageTable}
    (hreturns : s.threads.lookup t = some (.returning table true)) {n : PageNumber} {slot : SlotId}
    {shared : Bool} {prot : MemProt} (hentry : (n, ⟨.object slot shared, prot⟩) ∈ table.entries) :
    (s.history.manager.slots slot).resident = true ∧
    (∀ h, s.history.Represents h → ∃ page, table.getPage h n = .ok page) ∧
    ∃ call, (s.history.calls slot).filter (·.madePage) = [call] ∧
      call.source = s.history.sources slot ∧
      s.history.contents slot = some call.content := by
  have hinv := inv_run hrun
  have hresident : (s.history.manager.slots slot).resident = true :=
    hinv.sound t _ hreturns rfl slot (mem_objectSlots hentry)
  exact ⟨hresident, fun h hrep => hrep.getPage hentry hresident,
    hinv.tracked.inv.madeOnce hresident⟩

/-- One page of an object. -/
def objectTable : PageTable := ⟨[(3, ⟨.object 7 true, MemProt.READ⟩)], by decide⟩

/-- The object fails another MMU first, and is called again for this one. -/
def faultInAgain : List (FaultAction ℕ) :=
  [.other (.newSlot 7 0 ⟨1, 5⟩), .other (.enqueue 2 7 false true), .other (.lock 2),
    .other .dequeue,
    .other .upgrade, .call 1 objectTable, .inspect 1, .enqueue 1, .other (.finish .error 0),
      .other (.lock 1),
    .walked 1, .other .notify, .other .notify, .other .dequeue, .other .upgrade,
      .other (.finish .success 42),
    .other .notify, .receive 1, .receive 1]

theorem fault_in_complete_faultInAgain :
    ∃ s, run 4 faultInAgain = .ok s ∧ s.history.contents 7 = some 42 ∧
      ∃ call, (s.history.calls 7).filter (·.madePage) = [call] ∧ call.source = ⟨1, 5⟩ ∧
        s.history.contents 7 = some call.content := by
  refine ⟨_, rfl, rfl, ?_⟩
  exact (fault_in_complete (t := 1) (n := 3) 4 faultInAgain rfl rfl (List.mem_singleton_self _)).2.2

end FaultIn

end RapidArm.Objects
