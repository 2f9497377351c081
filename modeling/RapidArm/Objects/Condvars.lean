import RapidArm.Objects.Manager
import RapidArm.Lib.Trace

/-!
# The condition variables of the object manager

`Inner::close`, `Inner::enqueue` and `Inner::dequeue`
(`io-mmu/src/cpu_fabric/object_manager.rs`, lines 246–335) with `enqueued` and `dequeued`. In
`Manager` a caller that finds the queue full tries again at any time; here it waits on
`dequeued` until it is notified, and the worker waits on `enqueued`. `notify_one` wakes one of
the threads that wait, `wait` releases the lock at once, no thread wakes by itself, and a
thread that comes new may take the lock before one that was woken.

Results:
* `manager_step`: what a thread does with the queue is a step of the manager.
* `no_lost_wakeUp`: in a run in which no woken caller leaves the others behind, the worker does
  not wait for entries and a caller for room, both at once and with nobody to wake them.
* `enqueue_loses_wakeUp`: a woken caller whose page was made meanwhile leaves them behind.
-/

namespace RapidArm.Objects

open RapidArm.Lib

variable {κ : Type}

/-! ## State -/

/-- `Inner`, its condition variables and the threads. -/
structure Condvars (κ : Type) where
  manager : Manager κ
  /-- The callers that wait on `dequeued`. -/
  waiting : List ThreadId
  /-- The callers that were woken and have not taken the lock again. -/
  woken : List ThreadId
  /-- The threads that call `enqueued.notify_one()` next. -/
  notifying : List ThreadId
  /-- The worker waits on `enqueued`. -/
  workerWaits : Bool

/-- An action of a thread. -/
inductive ThreadEvent (κ : Type)
  /-- What happens outside of `Inner::enqueue`, `Inner::dequeue` and `Inner::close`. -/
  | manager (event : Event κ)
  /-- A caller takes the lock and goes once through the loop of `Inner::enqueue`. -/
  | lock (t : ThreadId)
  /-- `self.enqueued.notify_one()`. -/
  | notifyEnqueued (t : ThreadId)
  /-- The worker goes once through the loop of `Inner::dequeue`; `notify_one` wakes `t` if it
      can. -/
  | dequeue (t : ThreadId)
  /-- `Inner::close` up to `drop(lock)`. -/
  | close
  /-- `self.enqueued.notify_all()`. -/
  | notifyAllEnqueued
  /-- `self.dequeued.notify_all()`. -/
  | notifyAllDequeued
  deriving DecidableEq, Repr

namespace Condvars

/-- `ObjectManager::new`. -/
def new (queueLimit : ℕ) : Condvars κ where
  manager := .new queueLimit
  waiting := []
  woken := []
  notifying := []
  workerWaits := false

/-! ## Steps -/

/-- The events that need no lock. A thread that has still to notify the worker does not call. -/
def allows (s : Condvars κ) : Event κ → Bool
  | .enqueueInit t _ _ => t ∉ s.notifying
  | .enqueueFlush t _ _ => t ∉ s.notifying
  | .lock _ => false
  | .dequeue => false
  | .close => false
  | _ => true

/-- `self.dequeued.notify_one()`: one of the callers that wait is woken, `t` if it is among them. -/
def notifyDequeued (s : Condvars κ) (t : ThreadId) : Condvars κ :=
  match s.waiting with
  | [] => s
  | first :: _ =>
    let chosen := if t ∈ s.waiting then t else first
    { s with waiting := s.waiting.erase chosen, woken := s.woken ++ [chosen] }

/-- Once through the loop of `Inner::enqueue`. -/
def enqueueOnce (s : Condvars κ) (t : ThreadId) (e : EnqueueEntry κ) :
    Except Failure (Condvars κ) := do
  require (s.manager.closed = false) .workerThreadDied
  let (r, q) ← s.manager.queue.enqueue e (s.manager.slots e.slot).resident s.manager.queueLimit
  let s := { s with manager := s.manager.afterEnqueue t e q r, woken := s.woken.erase t }
  match r with
  | .queued => return { s with notifying := s.notifying ++ [t] }
  | .unnecessary => return s
  | .full => return { s with waiting := s.waiting ++ [t] }

/-- Once through the loop of `Inner::dequeue`. -/
def dequeueOnce (s : Condvars κ) (t : ThreadId) : Except Failure (Condvars κ) := do
  if s.manager.closed then
    return s
  match ← s.manager.queue.dequeue with
  | (none, _) => return { s with workerWaits := true }
  | (some entry, q) =>
    let m := { s.manager with
      queue := q, worker := .took entry, departed := s.manager.departed ++ [entry.slot] }
    return { s with manager := m }.notifyDequeued t

/-- One event. An event that cannot happen now changes nothing. -/
def step (s : Condvars κ) : ThreadEvent κ → Except Failure (Condvars κ)
  | .manager event =>
    if s.allows event then do return { s with manager := ← s.manager.step event } else .ok s
  | .lock t =>
    match s.manager.callers.lookup t with
    | some e => if t ∈ s.waiting then .ok s else s.enqueueOnce t e
    | none => .ok s
  | .notifyEnqueued t =>
    if t ∈ s.notifying then .ok { s with notifying := s.notifying.erase t, workerWaits := false }
    else .ok s
  | .dequeue t =>
    match s.manager.worker with
    | .idle => if s.workerWaits then .ok s else s.dequeueOnce t
    | _ => .ok s
  | .close => .ok { s with manager := { s.manager with closed := true } }
  | .notifyAllEnqueued =>
    if s.manager.closed then .ok { s with workerWaits := false } else .ok s
  | .notifyAllDequeued =>
    if s.manager.closed then .ok { s with waiting := [], woken := s.woken ++ s.waiting } else .ok s

/-- A run from the start. -/
def run (queueLimit : ℕ) (events : List (ThreadEvent κ)) : Except Failure (Condvars κ) :=
  events.foldlM step (new queueLimit)

/-! ## What an event does -/

/-- The events that do something, each with when it can happen and the state after it. -/
inductive Step (s : Condvars κ) : ThreadEvent κ → Condvars κ → Prop
  | nothing (event : ThreadEvent κ) : Step s event s
  | manager {event : Event κ} {m : Manager κ} (hallows : s.allows event = true)
    (hstep : s.manager.Step event m) : Step s (.manager event) { s with manager := m }
  | queued {t : ThreadId} {m : Manager κ} (hstep : s.manager.Step (.lock t) m)
    (hqueue : m.queue.queue ≠ []) :
    Step s (.lock t)
      { s with manager := m, woken := s.woken.erase t, notifying := s.notifying ++ [t] }
  | unnecessary {t : ThreadId} {e : EnqueueEntry κ} {m : Manager κ}
    (hcaller : s.manager.callers.lookup t = some e) (hawake : t ∉ s.waiting)
      (hinit : e.opType ≠ .flush)
    (hresident : (s.manager.slots e.slot).resident = true) (hstep : s.manager.Step (.lock t) m)
    (hqueue : m.queue = s.manager.queue) :
    Step s (.lock t) { s with manager := m, woken := s.woken.erase t }
  | full {t : ThreadId} (hfull : s.manager.queueLimit ≤ s.manager.queue.queue.length) :
    Step s (.lock t) { s with woken := s.woken.erase t, waiting := s.waiting ++ [t] }
  | notifyEnqueued {t : ThreadId} (hnotifying : t ∈ s.notifying) :
    Step s (.notifyEnqueued t) { s with notifying := s.notifying.erase t, workerWaits := false }
  | taken (t : ThreadId) {m : Manager κ} (hstep : s.manager.Step .dequeue m) :
    Step s (.dequeue t) ({ s with manager := m }.notifyDequeued t)
  | empty (t : ThreadId) (hqueue : s.manager.queue.queue = []) :
    Step s (.dequeue t) { s with workerWaits := true }
  | close : Step s .close { s with manager := { s.manager with closed := true } }
  | notifyAllEnqueued (hclosed : s.manager.closed = true) :
    Step s .notifyAllEnqueued { s with workerWaits := false }
  | notifyAllDequeued (hclosed : s.manager.closed = true) :
    Step s .notifyAllDequeued { s with waiting := [], woken := s.woken ++ s.waiting }

variable {s s' : Condvars κ}

theorem enqueueOnce_cases (hindexed : s.manager.queue.WellIndexed) {t : ThreadId}
    {e : EnqueueEntry κ} (hcaller : s.manager.callers.lookup t = some e) (hawake : t ∉ s.waiting)
    (hok : s.enqueueOnce t e = .ok s') : s.Step (.lock t) s' := by
  unfold enqueueOnce at hok
  obtain ⟨_, hopen, hok⟩ := bind_eq_ok.1 hok
  obtain ⟨⟨r, q⟩, henqueue, hok⟩ := bind_eq_ok.1 hok
  have hattempt : s.manager.attempt t e = .ok (s.manager.afterEnqueue t e q r) :=
    bind_eq_ok.2 ⟨_, hopen, bind_eq_ok.2 ⟨_, henqueue, rfl⟩⟩
  have hstep := Manager.attempt_cases hindexed hcaller hattempt
  cases (hindexed.enqueue_cases henqueue).1 with
  | unnecessary hinit hresident =>
    obtain rfl := Except.ok.inj hok
    exact .unnecessary hcaller hawake hinit hresident hstep rfl
  | full hnew hfull =>
    obtain rfl := Except.ok.inj hok
    exact .full hfull
  | joined hentry hslot hmerge hqueue hbase =>
    obtain rfl := Except.ok.inj hok
    refine .queued hstep ?_
    show q.queue ≠ []
    rw [hqueue, Ne, List.modify_eq_nil_iff]
    rintro hnil
    rw [hnil] at hentry
    cases hentry
  | pushed hnew hroom hqueue hbase =>
    obtain rfl := Except.ok.inj hok
    refine .queued hstep ?_
    show q.queue ≠ []
    rw [hqueue]
    exact List.append_ne_nil_of_right_ne_nil _ (List.cons_ne_nil _ _)

theorem dequeueOnce_cases (hindexed : s.manager.queue.WellIndexed)
    (hidle : s.manager.worker = .idle)
    {t : ThreadId} (hok : s.dequeueOnce t = .ok s') : s.Step (.dequeue t) s' := by
  unfold dequeueOnce at hok
  split_ifs at hok with hclosed
  · obtain rfl := Except.ok.inj hok
    exact .nothing _
  · obtain ⟨⟨r, q⟩, hdequeue, hok⟩ := bind_eq_ok.1 hok
    rcases hindexed.dequeue_cases hdequeue with
      ⟨hqueue, rfl, -⟩ | ⟨entry, rest, hqueue, rfl, rfl, hbase, hindexed'⟩
    · obtain rfl := Except.ok.inj hok
      exact .empty t hqueue
    · obtain rfl := Except.ok.inj hok
      exact .taken t (.dequeue hidle hqueue hbase hindexed')

theorem step_cases (hindexed : s.manager.queue.WellIndexed) {event : ThreadEvent κ}
    (hok : s.step event = .ok s') : s.Step event s' := by
  cases event with
  | manager event =>
    simp only [step] at hok
    split_ifs at hok with hallows
    · obtain ⟨m, hm, hok⟩ := bind_eq_ok.1 hok
      obtain rfl := Except.ok.inj hok
      exact .manager hallows (Manager.step_cases hindexed hm)
    · obtain rfl := Except.ok.inj hok
      exact .nothing _
  | lock t =>
    simp only [step] at hok
    split at hok
    · rename_i e hcaller
      split_ifs at hok with hwaits
      · obtain rfl := Except.ok.inj hok
        exact .nothing _
      · exact enqueueOnce_cases hindexed hcaller hwaits hok
    · obtain rfl := Except.ok.inj hok
      exact .nothing _
  | notifyEnqueued t =>
    simp only [step] at hok
    split_ifs at hok with hnotifying
    · obtain rfl := Except.ok.inj hok
      exact .notifyEnqueued hnotifying
    · obtain rfl := Except.ok.inj hok
      exact .nothing _
  | dequeue t =>
    simp only [step] at hok
    split at hok
    · rename_i hidle
      split_ifs at hok
      · obtain rfl := Except.ok.inj hok
        exact .nothing _
      · exact dequeueOnce_cases hindexed hidle hok
    · obtain rfl := Except.ok.inj hok
      exact .nothing _
  | close =>
    obtain rfl := Except.ok.inj hok
    exact .close
  | notifyAllEnqueued =>
    simp only [step] at hok
    split_ifs at hok with hclosed
    · obtain rfl := Except.ok.inj hok
      exact .notifyAllEnqueued hclosed
    · obtain rfl := Except.ok.inj hok
      exact .nothing _
  | notifyAllDequeued =>
    simp only [step] at hok
    split_ifs at hok with hclosed
    · obtain rfl := Except.ok.inj hok
      exact .notifyAllDequeued hclosed
    · obtain rfl := Except.ok.inj hok
      exact .nothing _

/-! ## The manager below -/

@[simp]
theorem notifyDequeued_manager (t : ThreadId) : (s.notifyDequeued t).manager = s.manager := by
  unfold notifyDequeued
  split <;> rfl

/-- The manager makes a step of its own, or rests. -/
theorem manager_step {event : ThreadEvent κ} (hstep : s.Step event s') :
    ∃ event', s.manager.Step event' s'.manager := by
  cases hstep with
  | manager hallows hstep => exact ⟨_, hstep⟩
  | queued hstep hqueue => exact ⟨_, hstep⟩
  | unnecessary hcaller hawake hinit hresident hstep hqueue => exact ⟨_, hstep⟩
  | taken t hstep => exact ⟨_, by rw [notifyDequeued_manager]; exact hstep⟩
  | close => exact ⟨_, .close⟩
  | _ => exact ⟨.close, .nothing _⟩

theorem queueLimit_step {m m' : Manager κ} {event : Event κ} (hstep : m.Step event m') :
    m'.queueLimit = m.queueLimit := by
  cases hstep <;> rfl

/-- Only callers under the lock and the worker change the queue. -/
theorem queue_step_of_allows {event : Event κ} {m : Manager κ} (hallows : s.allows event = true)
    (hstep : s.manager.Step event m) : m.queue = s.manager.queue := by
  cases hstep with
  | joined => cases hallows
  | pushed => cases hallows
  | dequeue => cases hallows
  | _ => rfl

/-- What the manager below promises. -/
structure Inv (queueLimit : ℕ) (s : Condvars κ) : Prop where
  manager : s.manager.Inv
  limit : s.manager.queueLimit = queueLimit

theorem inv_new (queueLimit : ℕ) : (new queueLimit : Condvars κ).Inv queueLimit where
  manager := Manager.inv_new queueLimit
  limit := rfl

theorem Inv.step {queueLimit : ℕ} (h : s.Inv queueLimit) {event : ThreadEvent κ}
    (hstep : s.Step event s') : s'.Inv queueLimit := by
  obtain ⟨event', hmanager⟩ := manager_step hstep
  exact ⟨h.manager.step hmanager, (queueLimit_step hmanager).trans h.limit⟩

/-! ## Callers that are left behind -/

/-- Callers wait for room in an empty queue, and none of them is woken. -/
def Stranded (s : Condvars κ) : Prop :=
  s.waiting ≠ [] ∧ s.manager.queue.queue = [] ∧ s.woken = []

/-- The worker waits for entries and callers wait for room, the queue is empty, no thread is woken
    and none has still to notify another. -/
def LostWakeUp (s : Condvars κ) : Prop :=
  s.workerWaits = true ∧ s.manager.queue.queue = [] ∧ s.waiting ≠ [] ∧ s.woken = [] ∧
    s.notifying = []

theorem LostWakeUp.stranded (h : s.LostWakeUp) : s.Stranded :=
  ⟨h.2.2.1, h.2.1, h.2.2.2.1⟩

/-- The only caller that is woken returns without an entry, as the page of its `Init` was made
    meanwhile; the queue is empty and others wait. -/
def LeavesBehind (s : Condvars κ) : ThreadEvent κ → Prop
  | .lock t =>
    (∃ e ∈ s.manager.callers.lookup t, e.opType ≠ .flush ∧
      (s.manager.slots e.slot).resident = true) ∧
      t ∉ s.waiting ∧ s.manager.queue.queue = [] ∧ s.woken = [t] ∧ s.waiting ≠ []
  | _ => False

instance (s : Condvars κ) (event : ThreadEvent κ) : Decidable (s.LeavesBehind event) :=
  match event with
  | .lock _ => inferInstanceAs (Decidable (_ ∧ _))
  | .manager _ | .notifyEnqueued _ | .dequeue _ | .close | .notifyAllEnqueued |
    .notifyAllDequeued =>
    inferInstanceAs (Decidable False)

theorem woken_notifyDequeued (t : ThreadId) (hwaiting : s.waiting ≠ []) :
    (s.notifyDequeued t).woken ≠ [] := by
  unfold notifyDequeued
  split
  · rename_i hnone
    exact absurd hnone hwaiting
  · exact List.append_ne_nil_of_right_ne_nil _ (List.cons_ne_nil _ _)

theorem waiting_of_notifyDequeued {t : ThreadId} (hwaiting : (s.notifyDequeued t).waiting ≠ []) :
    s.waiting ≠ [] := by
  intro hnone
  refine hwaiting ?_
  unfold notifyDequeued
  rw [hnone]
  exact hnone

/-- A list without its only element that could be missed. -/
theorem eq_singleton_of_erase {woken : List ThreadId} {t : ThreadId} (herase : woken.erase t = [])
    (hne : woken ≠ []) : woken = [t] := by
  rcases List.erase_eq_nil_iff.1 herase with hnil | hsingle
  · exact absurd hnil hne
  · exact hsingle

/-- One event strands nobody, unless a caller leaves the others behind. -/
theorem stranded_step {queueLimit : ℕ} (h : s.Inv queueLimit) (hlimit : 1 ≤ queueLimit)
    (hserved : ¬ s.Stranded) {event : ThreadEvent κ} (hpasses : ¬ s.LeavesBehind event)
    (hstep : s.Step event s') : ¬ s'.Stranded := by
  rintro ⟨hwaiting, hempty, hwoken⟩
  cases hstep with
  | nothing => exact hserved ⟨hwaiting, hempty, hwoken⟩
  | manager hallows hstep =>
    refine hserved ⟨hwaiting, ?_, hwoken⟩
    rw [← queue_step_of_allows hallows hstep]
    exact hempty
  | queued hstep hqueue => exact hqueue hempty
  | @unnecessary t e m hcaller hawake hinit hresident hstep hqueue =>
    change m.queue.queue = [] at hempty
    rw [hqueue] at hempty
    have hwas : s.woken ≠ [] := fun hnone => hserved ⟨hwaiting, hempty, hnone⟩
    have hsingle := eq_singleton_of_erase hwoken hwas
    exact hpasses ⟨⟨e, hcaller, hinit, hresident⟩, hawake, hempty, hsingle, hwaiting⟩
  | full hfull =>
    -- a full queue is not empty
    change s.manager.queue.queue = [] at hempty
    rw [h.limit, hempty] at hfull
    exact absurd (le_trans hlimit hfull) (Nat.not_succ_le_zero 0)
  | notifyEnqueued => exact hserved ⟨hwaiting, hempty, hwoken⟩
  | taken t hstep => exact woken_notifyDequeued t (waiting_of_notifyDequeued hwaiting) hwoken
  | empty => exact hserved ⟨hwaiting, hempty, hwoken⟩
  | close => exact hserved ⟨hwaiting, hempty, hwoken⟩
  | notifyAllEnqueued => exact hserved ⟨hwaiting, hempty, hwoken⟩
  | notifyAllDequeued => exact hwaiting rfl

/-- A caller that leaves the others behind strands them. -/
theorem LeavesBehind.stranded {event : ThreadEvent κ} (h : s.LeavesBehind event)
    (hopen : s.manager.closed = false) (hindexed : s.manager.queue.WellIndexed) :
    ∃ s', s.step event = .ok s' ∧ s'.Stranded := by
  cases event with
  | lock t => ?_
  | _ => cases h
  obtain ⟨⟨e, hcaller, hinit, hresident⟩, hawake, hempty, hwoken, hwaiting⟩ := h
  have hrequire : require (s.manager.closed = false) Failure.workerThreadDied = .ok () :=
    require_eq_ok.2 hopen
  have henqueue : s.manager.queue.enqueue e true s.manager.queueLimit =
      .ok (.unnecessary, s.manager.queue) := by
    unfold Queue.enqueue
    rw [hindexed.assertInvariant, ok_bind, if_pos ⟨hinit, rfl⟩]
    rfl
  simp only [step, Option.mem_def.1 hcaller, if_neg hawake, enqueueOnce, hrequire,
    hresident, henqueue, ok_bind]
  refine ⟨_, rfl, hwaiting, hempty, ?_⟩
  show s.woken.erase t = []
  rw [hwoken, List.erase_cons_head]

/-! ## Runs -/

/-- Whatever the callers ask for, in whatever order they and the worker come to the lock. -/
theorem no_lost_wakeUp {queueLimit : ℕ} (hlimit : 1 ≤ queueLimit) (events : List (ThreadEvent κ))
    (hpasses : EveryCall step (fun s event => ¬ s.LeavesBehind event) (new queueLimit) events)
    (hrun : run queueLimit events = .ok s) : ¬ s.LostWakeUp := by
  have hserved : s.Inv queueLimit ∧ ¬ s.Stranded := by
    refine hpasses.invariant (I := fun s => s.Inv queueLimit ∧ ¬ s.Stranded)
      ⟨inv_new queueLimit, fun h => h.1 rfl⟩ ?_ hrun
    rintro s₁ s₂ event ⟨hinv, hserved⟩ hpasses hok
    have hstep := step_cases hinv.manager.indexed hok
    exact ⟨hinv.step hstep, stranded_step hinv hlimit hserved hpasses hstep⟩
  exact fun hlost => hserved.2 hlost.stranded

/-- Three slots are called for in a queue of length 1, the second one twice. -/
def fillQueue : List (ThreadEvent ℕ) :=
  [.manager (.newSlot 1 0), .manager (.newSlot 2 0), .manager (.newSlot 3 0),
    .manager (.enqueueInit 1 1 none), .lock 1, .notifyEnqueued 1,
    .manager (.enqueueInit 2 2 none), .lock 2,
    .manager (.enqueueInit 3 2 none), .lock 3,
    .manager (.enqueueInit 4 3 none), .lock 4]

/-- The worker takes an entry, wakes a caller and makes the page. -/
def makePage (t : ThreadId) : List (ThreadEvent ℕ) :=
  [.dequeue t, .manager .upgrade, .manager (.finish .success), .manager .notify]

/-- Each caller that is woken queues its entry before the worker comes back. -/
def inOrder : List (ThreadEvent ℕ) :=
  fillQueue ++ makePage 2 ++ [.lock 2, .notifyEnqueued 2, .dequeue 4, .lock 4]

theorem no_lost_wakeUp_inOrder :
    ∃ s, run 1 inOrder = .ok s ∧ s.waiting = [3] ∧ ¬ s.LostWakeUp := by
  refine ⟨_, rfl, rfl, no_lost_wakeUp le_rfl inOrder ?_ rfl⟩
  refine everyCall_of_check (fun s event => !decide (s.LeavesBehind event)) (fun s event h => ?_) ?_
  · exact of_decide_eq_false (Bool.not_eq_true' _ ▸ h)
  · rfl

/-- The caller of the page that was made already takes the lock after the worker is back. -/
def tooLate : List (ThreadEvent ℕ) :=
  fillQueue ++ makePage 2 ++ [.lock 2, .notifyEnqueued 2] ++ makePage 3 ++ [.lock 3, .dequeue 4]

theorem enqueue_loses_wakeUp :
    ∃ s, run 1 tooLate = .ok s ∧ s.manager.closed = false ∧ s.LostWakeUp := by
  refine ⟨_, rfl, rfl, rfl, rfl, ?_, rfl, rfl⟩
  decide

end Condvars

end RapidArm.Objects
