import RapidArm.Objects.History
import RapidArm.Lib.Lists

/-!
# What becomes of a callback

A callback of `enqueue_init` or `enqueue_flush` is wrapped into `SucceedOnDrop`, goes into an
entry of the queue, where it may meet others, and is called at the end of `handle_task`
(`io-mmu/src/cpu_fabric/object_manager.rs`, lines 62–83, 144–224, 264–318 and 337–425). An
entry that is queued as `Init` becomes a `Flush` when a flush of its slot is merged into it,
and takes the callbacks of the `Init` along.

A callback means something for its request (`Meant`): that the page is there, or that a call
of the object has gone as reported, one of the kind asked for that started after the request.

Results:
* `callbacks_answered`: as long as no write-back fails that has taken over callbacks of an
  `Init`, each callback has one place, none is dropped, and what it reports is meant.
* `init_fails_without_faultIn`: an `Init` fails with a write-back, although its page is there.
-/

namespace RapidArm.Objects

open RapidArm.Lib

variable {π : Type}

namespace History

variable {direct : Prop} {s s' : History π}

/-! ## Meanings -/

/-- A call for the slot of the request, which started after the request, satisfies `P`. -/
def Called (s : History π) (r : Request) (P : ObjectCall π → Prop) : Prop :=
  ∃ k call, r.calls ≤ k ∧ (s.calls r.slot)[k]? = some call ∧ P call

/-- What it means for a request that its callback is told success or failure. -/
def Meant (s : History π) (r : Request) : Bool → Prop
  | true =>
    if r.isFlush then
      r.resident = false ∨ s.Called r fun call => call.opType = .flush ∧ call.outcome = .success
    else (s.manager.slots r.slot).resident = true
  | false => s.Called r fun call => (call.opType = .flush ↔ r.isFlush = true) ∧
    call.outcome ≠ .success

/-- The callback `c` of the request is at one place, and what it was told is meant. -/
structure Answered (s : History π) (c : ℕ) (r : Request) : Prop where
  once : s.manager.callbacks.count c = 1
  notDropped : (c, .dropped) ∉ s.manager.ended
  succeeded : (c, .succeeded) ∈ s.manager.ended → s.Meant r true
  failed : (c, .failed) ∈ s.manager.ended → s.Meant r false

/-- A write-back fails, and with it an `Init` that was merged into its entry. -/
def misdirects (s : History π) : HistoryEvent π → Bool
  | .finish outcome _ =>
    match s.manager.worker with
    | .running _ .flush callbacks =>
      outcome ≠ .success && callbacks.any fun c => s.requests[c]?.any fun r => !r.isFlush
    | _ => false
  | _ => false

/-- What a callback that is told success or failure says about its request. Failure says something
    only if the write-backs that fail are those that were asked for (`direct`). -/
def Told (s : History π) (direct : Prop) (r : Request) : Bool → Prop
  | true => s.Meant r true
  | false => direct → s.Meant r false

/-- What a place means for the callback of a request. -/
def Good (s : History π) (direct : Prop) (r : Request) : Manager.Place → Prop
  | .calling id opType => id = r.slot ∧ (opType = .flush ↔ r.isFlush = true)
  | .queued id opType => id = r.slot ∧ (r.isFlush = true → opType = .flush)
  | .taken id opType => id = r.slot ∧ (r.isFlush = true → opType = .flush)
  | .running id opType =>
    id = r.slot ∧ (r.isFlush = true → opType = .flush) ∧ r.calls ≤ (s.calls r.slot).length
  | .notifying _ success => s.Told direct r success
  | .ended .succeeded => s.Told direct r true
  | .ended .failed => s.Told direct r false
  | .ended .dropped => False

/-! ## What one event does to a request -/

theorem calls_grow (m : Manager ℕ) (event : HistoryEvent π) {id : ObjSlotId}
    (hnew : ¬ ((∃ fabric source, event = .newSlot id fabric source) ∧ s.manager.slots id = .free)) :
    ∃ more, (s.record m event).calls id = s.calls id ++ more := by
  rcases calls_record m event id with ⟨hcalls, -⟩ | ⟨hevent, hfree, -⟩ | ⟨_, _, _, _, -,
    -, hcalls, -⟩
  · exact ⟨[], by rw [hcalls, List.append_nil]⟩
  · exact absurd ⟨hevent, hfree⟩ hnew
  · exact ⟨_, hcalls⟩

theorem Called.grow {r : Request} {P : ObjectCall π → Prop} (h : s.Called r P)
    (hcalls : ∃ more, s'.calls r.slot = s.calls r.slot ++ more) : s'.Called r P := by
  obtain ⟨k, call, hk, hcall, hP⟩ := h
  obtain ⟨more, hmore⟩ := hcalls
  refine ⟨k, call, hk, ?_, hP⟩
  rw [hmore]
  rw [List.getElem?_append_left (getElem?_eq_some_lt hcall), hcall]

theorem Meant.grow {r : Request} {success : Bool} (h : s.Meant r success)
    (hcalls : ∃ more, s'.calls r.slot = s.calls r.slot ++ more)
    (hresident : (s.manager.slots r.slot).resident = true →
      (s'.manager.slots r.slot).resident = true) :
    s'.Meant r success := by
  cases success with
  | true =>
    unfold Meant at h ⊢
    dsimp only at h ⊢
    split_ifs at h ⊢ with hflush
    · exact h.imp_right fun hcalled => hcalled.grow hcalls
    · exact hresident h
  | false => exact Called.grow h hcalls

theorem Told.grow {r : Request} {success : Bool} (h : s.Told direct r success)
    (hcalls : ∃ more, s'.calls r.slot = s.calls r.slot ++ more)
    (hresident : (s.manager.slots r.slot).resident = true →
      (s'.manager.slots r.slot).resident = true) :
    s'.Told direct r success := by
  cases success with
  | true => exact (show s.Meant r true from h).grow hcalls hresident
  | false => exact fun hdirect => Meant.grow (h hdirect) hcalls hresident

/-- The number of calls that have started does not shrink. -/
theorem Inv.started_grow (h : s.Inv) {event : HistoryEvent π} {m : Manager ℕ}
    (hm : s.manager.step (s.managerEvent event) = .ok m) {id : ObjSlotId}
    (hnew : ¬ ((∃ fabric source, event = .newSlot id fabric source) ∧ s.manager.slots id = .free)) :
    s.started id ≤ (s.record m event).started id := by
  unfold started
  rw [record_manager]
  rcases calls_record m event id with ⟨hcalls, -, -, hfinish⟩ | ⟨hevent, hfree, -⟩ |
    ⟨outcome, content, opType, callbacks, rfl, hrunning, hcalls, -⟩
  · rw [hcalls]
    cases hworker : s.manager.worker with
    | running id' opType callbacks =>
      by_cases hid : id' = id
      · subst hid
        have hstep := Manager.step_cases h.manager.indexed hm
        rw [Manager.running_of_step hstep hworker fun outcome hevent =>
          hfinish ⟨outcome, eq_finish hevent⟩ opType callbacks hworker]
      · simp [Worker.hasArc, hid]
    | _ => simp [Worker.hasArc]
  · exact absurd ⟨hevent, hfree⟩ hnew
  · rw [hcalls, hrunning, List.length_append, List.length_singleton]
    simp [Worker.hasArc]

/-- A callback that comes with an event is the next one. -/
theorem eq_of_brings {event : HistoryEvent π} {c : ℕ} {place : Manager.Place}
    (h : s.manager.Brings (s.managerEvent event) c place) : c = s.requests.length := by
  have hcallback : ∀ {notify}, s.callback notify = some c → c = s.requests.length := by
    intro notify hc
    cases notify with
    | false => cases hc
    | true => exact (Option.some.inj hc).symm
  cases event with
  | enqueue t id isFlush notify =>
    cases isFlush with
    | false =>
      change s.manager.Brings (.enqueueInit t id (s.callback notify)) c place at h
      generalize hnext : s.callback notify = next at h
      cases h
      exact hcallback hnext
    | true =>
      change s.manager.Brings (.enqueueFlush t id (s.callback notify)) c place at h
      generalize hnext : s.callback notify = next at h
      cases h with
      | flush => exact hcallback hnext
      | skipped => exact hcallback hnext
  | _ => cases h

/-- Where the callback of a new request is. -/
theorem good_of_brings {t : ThreadId} {id : ObjSlotId} {isFlush : Bool} {c : ℕ}
    {place : Manager.Place}
    (h : s.manager.Brings (s.managerEvent (.enqueue t id isFlush true)) c place) :
    s'.Good direct (s.request id isFlush) place := by
  cases isFlush with
  | false =>
    change s.manager.Brings (.enqueueInit t id (some s.requests.length)) c place at h
    cases h
    exact ⟨rfl, nofun, nofun⟩
  | true =>
    change s.manager.Brings (.enqueueFlush t id (some s.requests.length)) c place at h
    cases h with
    | flush => exact ⟨rfl, fun _ => rfl, fun _ => rfl⟩
    | skipped hresident => exact .inl hresident

/-! ## Callbacks on their way -/

/-- Wherever the callback of a request is whose slot is kept, it is good there. Without `direct`
    this holds in every run. -/
structure Tracked (s : History π) (direct : Prop) : Prop where
  inv : s.Inv
  good : ∀ (c : ℕ) r place, s.requests[c]? = some r → s.Kept r → s.manager.At c place →
    s.Good direct r place
  started : ∀ (c : ℕ) r, s.requests[c]? = some r → s.Kept r → r.calls ≤ s.started r.slot

theorem tracked_new (queueLimit : ℕ) : (new queueLimit : History π).Tracked direct where
  inv := inv_new queueLimit
  good := fun _ _ _ hr => by cases hr
  started := fun _ _ hr => by cases hr

/-- The object of a running task returns: what that means for a request of the entry. -/
theorem meant_of_finish {event : HistoryEvent π} {m : Manager ℕ} (hinv : s.Inv)
    (hinv' : (s.record m event).Inv) {r : Request} (hkept : (s.record m event).Kept r)
    {opType : OpType} {callbacks : List ℕ} {outcome : Outcome} {content : π}
    (hevent : event = .finish outcome content)
    (hrunning : s.manager.worker = .running r.slot opType callbacks)
    (hop : r.isFlush = true → opType = .flush) (hcalls : r.calls ≤ (s.calls r.slot).length)
    (hresident : (s.manager.slots r.slot).resident = true →
      ((s.record m event).manager.slots r.slot).resident = true)
    (hdirect : direct → outcome ≠ .success → opType = .flush → r.isFlush = true) :
    (s.record m event).Told direct r (outcome = .success) := by
  subst hevent
  -- the call is the last one for the slot
  have hlast : ∀ {P : ObjectCall π → Prop}, P (s.objectCall opType outcome content) →
      (s.record m (.finish outcome content)).Called r P := by
    intro P hP
    refine ⟨(s.calls r.slot).length, _, hcalls, ?_, hP⟩
    simp [record, hrunning]
  by_cases hsuccess : outcome = .success
  · rw [decide_eq_true hsuccess]
    show (s.record m _).Meant r true
    unfold Meant
    dsimp only
    split_ifs with hflush
    · exact .inr (hlast ⟨hop hflush, hsuccess⟩)
    · by_cases hopFlush : opType = .flush
      · exact hresident ((hinv.running _ _ _ hrunning).2.1 hopFlush)
      · rw [(hinv'.pages r.slot hkept.1).1]
        simp [record, hrunning, hopFlush, hsuccess]
  · rw [decide_eq_false hsuccess]
    exact fun hd => hlast ⟨⟨hdirect hd hsuccess, hop⟩, hsuccess⟩

theorem Good.move {event : HistoryEvent π} {m : Manager ℕ} (hinv : s.Inv)
    (hm : s.manager.step (s.managerEvent event) = .ok m) (hinv' : (s.record m event).Inv)
    (hdirect : direct → ¬ s.misdirects event = true) {c : ℕ} {r : Request}
    (hr : s.requests[c]? = some r) (hkept : s.Kept r) (hkept' : (s.record m event).Kept r)
    (hcalls : ∃ more, (s.record m event).calls r.slot = s.calls r.slot ++ more)
    (hstarted : r.calls ≤ s.started r.slot) {place place' : Manager.Place}
    (hat : s.manager.At c place) (hgood : s.Good direct r place)
    (hmoves : Manager.Moves (s.managerEvent event) place place')
    (hgrounds : s.manager.Grounds place place') : (s.record m event).Good direct r place' := by
  have hresident : (s.manager.slots r.slot).resident = true →
      ((s.record m event).manager.slots r.slot).resident = true := by
    intro hresident
    have hlive := hkept'.1
    rw [record_manager] at hlive ⊢
    exact Manager.resident_of_step (Manager.step_cases hinv.manager.indexed hm) hlive hresident
  generalize hevent : s.managerEvent event = mevent at hmoves
  cases hmoves with
  | stays =>
    cases place with
    | calling id opType => exact hgood
    | queued id opType => exact hgood
    | taken id opType => exact hgood
    | running id opType =>
      obtain ⟨hid, hop, hle⟩ := hgood
      obtain ⟨more, hmore⟩ := hcalls
      refine ⟨hid, hop, Nat.le_trans hle ?_⟩
      rw [hmore, List.length_append]
      exact Nat.le_add_right _ _
    | notifying id success => exact Told.grow hgood hcalls hresident
    | ended how =>
      cases how with
      | succeeded => exact (show s.Told direct r true from hgood).grow hcalls hresident
      | failed => exact (show s.Told direct r false from hgood).grow hcalls hresident
      | dropped => exact hgood
  | enqueued t hop => exact ⟨hgood.1, fun hflush => hop (hgood.2.2 hflush)⟩
  | merged t hop => exact ⟨hgood.1, fun hflush => hop (hgood.2 hflush)⟩
  | @unnecessary t id opType hinit =>
    obtain ⟨rfl, hop⟩ := hgood
    have hflush : ¬ r.isFlush = true := fun hflush => hinit (hop.2 hflush)
    show (s.record m event).Meant r true
    unfold Meant
    dsimp only
    rw [if_neg hflush]
    exact hresident hgrounds
  | taken id opType => exact hgood
  | gone id opType =>
    obtain ⟨rfl, -⟩ := hgood
    have hlive := hkept.1
    rw [show (s.manager.slots r.slot).isLive = false from hgrounds] at hlive
    cases hlive
  | @ready id opType hinit =>
    obtain ⟨rfl, hop⟩ := hgood
    have hflush : ¬ r.isFlush = true := fun hflush => hinit (hop hflush)
    show (s.record m event).Meant r true
    unfold Meant
    dsimp only
    rw [if_neg hflush]
    exact hresident hgrounds
  | started id opType =>
    cases hat with
    | taken htook hc =>
      refine ⟨hgood.1, hgood.2, Nat.le_trans hstarted ?_⟩
      obtain ⟨more, hmore⟩ := hcalls
      unfold History.started
      rw [htook, hmore, List.length_append]
      simp [Worker.hasArc]
  | finished id opType outcome =>
    obtain ⟨rfl, hop, hle⟩ := hgood
    obtain ⟨content, hfinish⟩ := eq_finish hevent
    cases hat with
    | @running _ _ callbacks hrunning hc =>
      refine meant_of_finish hinv hinv' hkept' hfinish hrunning hop hle hresident
        fun hd hfails hflush => ?_
      by_contra hinit
      refine hdirect hd ?_
      subst hfinish hflush
      simp only [misdirects, hrunning, Bool.and_eq_true, decide_eq_true_eq, List.any_eq_true]
      exact ⟨hfails, c, hc, by simp [hr, hinit]⟩
  | notified id success =>
    cases success with
    | true => exact (show s.Told direct r true from hgood).grow hcalls hresident
    | false => exact (show s.Told direct r false from hgood).grow hcalls hresident

theorem Tracked.step (h : s.Tracked direct) {event : HistoryEvent π}
    (hdirect : direct → ¬ s.misdirects event = true) (hok : s.step event = .ok s') :
    s'.Tracked direct := by
  have hinv' := h.inv.step hok
  obtain ⟨m, hm, rfl⟩ := step_eq hok
  have hstep := Manager.step_cases h.inv.manager.indexed hm
  -- a request of before
  have hold : ∀ c r, s.requests[c]? = some r → (s.record m event).Kept r →
      (∀ place, (s.record m event).manager.At c place → (s.record m event).Good direct r place) ∧
        r.calls ≤ (s.record m event).started r.slot := by
    intro c r hr hkept'
    obtain ⟨hkept, hnew⟩ := h.inv.kept_before hm (List.mem_of_getElem? hr) hkept'
    refine ⟨fun place' hat' => ?_,
      Nat.le_trans (h.started c r hr hkept) (h.inv.started_grow hm hnew)⟩
    rw [record_manager] at hat'
    rcases hat'.step_grounds hstep with ⟨place, hat, hmoves, hgrounds⟩ | hbrings
    · exact Good.move h.inv hm hinv' hdirect hr hkept hkept' (calls_grow m event hnew)
        (h.started c r hr hkept) hat (h.good c r place hr hkept hat) hmoves hgrounds
    · have hlt := getElem?_eq_some_lt hr
      rw [eq_of_brings hbrings] at hlt
      exact absurd hlt (Nat.lt_irrefl _)
  -- the request of the event
  have hall : ∀ c r, (s.record m event).requests[c]? = some r → (s.record m event).Kept r →
      (∀ place, (s.record m event).manager.At c place → (s.record m event).Good direct r place) ∧
        r.calls ≤ (s.record m event).started r.slot := by
    intro c r hr hkept'
    rcases requests_record m event with ⟨hrequests, -⟩ | ⟨t, id, isFlush, rfl, haccepts, hrecord, -⟩
    · rw [hrequests] at hr
      exact hold c r hr hkept'
    · rw [hrecord] at hr
      rcases Nat.lt_or_ge c s.requests.length with hlt | hge
      · rw [List.getElem?_append_left hlt] at hr
        exact hold c r hr hkept'
      · obtain ⟨rfl, rfl⟩ := getElem?_concat_of_ge hr hge
        refine ⟨fun place' hat' => ?_, ?_⟩
        · rw [record_manager] at hat'
          rcases hat'.step hstep with ⟨place, hat, -⟩ | hbrings
          · have hcount := h.inv.once s.requests.length
            rw [if_neg (Nat.lt_irrefl _), List.count_eq_zero] at hcount
            exact absurd hat.mem_callbacks hcount
          · exact good_of_brings hbrings
        · refine h.inv.started_grow hm ?_
          rintro ⟨⟨_, _, ⟨⟩⟩, -⟩
  exact ⟨hinv', fun c r place hr hkept => (hall c r hr hkept).1 place,
    fun c r hr hkept => (hall c r hr hkept).2⟩

/-! ## Runs -/

theorem Tracked.answered (h : s.Tracked True) {c : ℕ} {r : Request} (hr : s.requests[c]? = some r)
    (hkept : s.Kept r) : s.Answered c r where
  once := by rw [h.inv.once c, if_pos (getElem?_eq_some_lt hr)]
  notDropped := fun hdropped => h.good c r _ hr hkept (.ended hdropped)
  succeeded := fun hsucceeded => h.good c r _ hr hkept (.ended hsucceeded)
  failed := fun hfailed => h.good c r _ hr hkept (.ended hfailed) trivial

/-- The callbacks of a manager that is open, whatever its callers, its worker, the objects and the
    owners of the slots do. -/
theorem callbacks_answered (queueLimit : ℕ) (events : List (HistoryEvent π))
    (hdirect : EveryCall step (fun s event => ¬ s.misdirects event = true) (new queueLimit) events)
    (hrun : run queueLimit events = .ok s) (_hopen : s.manager.closed = false) {c : ℕ} {r : Request}
    (hr : s.requests[c]? = some r) (hkept : s.Kept r) : s.Answered c r := by
  have htracked : s.Tracked True :=
    hdirect.invariant (I := fun s => s.Tracked True) (tracked_new queueLimit)
      (fun _ _ _ h hdirect hok => h.step (fun _ => hdirect) hok) hrun
  exact htracked.answered hr hkept

/-- A page is made for a first `Init` while a second one is queued, and a flush joins that one. -/
def initInitFlush (outcome : Outcome) : List (HistoryEvent ℕ) :=
  [.newSlot 7 0 ⟨1, 5⟩, .enqueue 1 7 false true, .lock 1, .dequeue, .upgrade,
    .enqueue 2 7 false true, .lock 2, .finish .success 42, .notify, .notify,
    .enqueue 3 7 true true, .lock 3, .dequeue, .upgrade, .finish outcome 0, .notify, .notify]

theorem callbacks_answered_initInitFlush :
    ∃ s, run 4 (initInitFlush .success) = .ok s ∧
      s.manager.ended = [(0, .succeeded), (1, .succeeded), (2, .succeeded)] ∧
      s.Answered 2 ⟨7, true, 1, 1, true⟩ := by
  refine ⟨_, rfl, rfl, callbacks_answered 4 (initInitFlush .success) ?_ rfl rfl rfl ⟨rfl, rfl⟩⟩
  refine everyCall_of_check (fun s event => !s.misdirects event) (fun s event h => ?_) rfl
  simpa using h

/-- An `Init` that fails when the only call after it is a write-back. -/
theorem not_answered_of_calls {c : ℕ} {r : Request} (hinit : r.isFlush = false) (hone : r.calls = 1)
    (hops : (s.calls r.slot).map (·.opType) = [.init 0, .flush])
    (hfailed : (c, .failed) ∈ s.manager.ended) :
    ¬ s.Answered c r := by
  intro h
  obtain ⟨k, call, hk, hcall, hop, -⟩ := h.failed hfailed
  have hkind : ((s.calls r.slot).map (·.opType))[k]? = some call.opType := by
    rw [List.getElem?_map, hcall]
    rfl
  rw [hops] at hkind
  have hlt := getElem?_eq_some_lt hkind
  obtain rfl : k = 1 := by
    rw [hone] at hk
    exact Nat.le_antisymm (Nat.le_of_lt_succ hlt) hk
  have hflush : call.opType = .flush := (Option.some.inj hkind).symm
  rw [hop.1 hflush] at hinit
  cases hinit

/-- The second `Init` fails with the write-back, although its page is there and no `fault_in` has
    failed. -/
theorem init_fails_without_faultIn :
    ∃ s, run 4 (initInitFlush .error) = .ok s ∧ s.manager.closed = false ∧
      s.requests[1]? = some ⟨7, false, 1, 1, false⟩ ∧ s.Kept ⟨7, false, 1, 1, false⟩ ∧
      (1, .failed) ∈ s.manager.ended ∧ (s.manager.slots 7).resident = true ∧
      (s.calls 7).map (·.outcome) = [.success, .error] ∧
        ¬ s.Answered 1 ⟨7, false, 1, 1, false⟩ := by
  refine ⟨_, rfl, rfl, rfl, ⟨rfl, rfl⟩, by decide, rfl, rfl, ?_⟩
  exact not_answered_of_calls rfl rfl rfl (by decide)

end History

end RapidArm.Objects
