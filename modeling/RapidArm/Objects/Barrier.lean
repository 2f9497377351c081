import RapidArm.Objects.WriteBack
import Mathlib.Tactic.IntervalCases

/-!
# `flush` as a barrier

`IoMMU::flush` (`io-mmu/src/lib.rs`, lines 1257–1281) queues the write-back of every page
whose dirty or flushing flag is set, each with a channel, and waits for the channels. A page
with clear flags is passed by, although its write-back may still be queued or running, or
may have failed.

Each callback is followed from the call to its end (`Safe`): as long as it is on its way it
belongs to a flush of its slot, and once it has succeeded, a `fault_out` that started after
the call has succeeded.

Results:
* `flush_waits`: in a run in which `flush` meets no clean page with a store from before the
  call that is not saved, all stores from before the call are saved when it returns `Ok`.
* `flush_after_refresh`: after a `refresh`, `flush` returns before the write-back.
-/

namespace RapidArm.Objects

open RapidArm.Lib RapidArm.Mmu

namespace WriteBack

variable {s s' : WriteBack}

/-! ## Callbacks that are safe to wait for -/

/-- What a place means for a callback of a flush of the slot that has to save `n` stores. -/
def Good (s : WriteBack) (id : ObjSlotId) (n : ℕ) : Manager.Place → Prop
  | .calling id' opType => id' = id ∧ opType = .flush
  | .queued id' opType => id' = id ∧ opType = .flush
  | .taken id' opType => id' = id ∧ opType = .flush
  | .running id' opType => id' = id ∧ opType = .flush ∧ n ≤ s.started
  | .notifying _ success => success = true → n ≤ s.saved id
  | .ended how => how = .succeeded → n ≤ s.saved id

/-- Wherever the callback is, it is good there. -/
def Safe (s : WriteBack) (c : Channel) (id : ObjSlotId) (n : ℕ) : Prop :=
  ∀ place, s.manager.At c place → s.Good id n place

/-- What holds of a call of `flush` that has still to come to `todo`. -/
structure FlushOk (s : WriteBack) (call : FlushCall) (todo : List ObjSlotId) : Prop where
  ahead : ∀ id ∈ todo, id ∈ call.table
  since : ∀ id ∈ call.table, call.since id ≤ s.written id
  pending : ∀ c id, (c, id) ∈ call.pending →
    id ∈ call.table ∧ c < s.channels ∧ s.Safe c id (call.since id)
  covered : ∀ id ∈ call.table, id ∈ todo ∨ call.since id ≤ s.saved id ∨ ∃ c, (c, id) ∈ call.pending

/-- What holds of a thread. -/
def PcSafe (s : WriteBack) : Pc → Prop
  | .walking (.flush call) todo => s.FlushOk call todo
  | .invalidating (.flush call) id todo => s.FlushOk call (id :: todo)
  | .released (.flush call) id todo => s.FlushOk call (id :: todo)
  | .waiting call => s.FlushOk call []
  | .returning call true => ∀ id ∈ call.table, call.since id ≤ s.saved id
  | _ => True

/-- `flush` does not pass by a page with a store from before the call that is not saved. -/
def MeetsUnsaved (s : WriteBack) (action : Action) : Prop :=
  ∀ t call id todo, action = .inspect t →
    s.threads.lookup t = some (.walking (.flush call) (id :: todo)) →
    s.flags id &&& BOTH_DIRTY_MASK = 0 → call.since id ≤ s.saved id

/-! ## Steps of the manager -/

/-- The manager makes a step, and the counters follow it. -/
structure Follows (s : WriteBack) (event : Event Channel) (s' : WriteBack) : Prop where
  step : s.manager.Step event s'.manager
  counters : ∀ id, s.manager.slots id ≠ .free → s.written id ≤ s'.written id ∧
    s.saved id ≤ s'.saved id
  channels : s.channels ≤ s'.channels
  brings : ∀ c place, s.manager.Brings event c place → c = s.channels
  running : ∀ id opType callbacks, s.manager.worker = .running id opType callbacks →
    s'.started = s.started
  upgrade : event = .upgrade → ∀ entry, s.manager.worker = .took entry →
    s'.started = s.written entry.slot
  success : event = .finish .success → ∀ id, s.manager.FlushRunning id → s.started ≤ s'.saved id

theorem Follows.safe {event : Event Channel} (hf : s.Follows event s') {c : Channel}
    {id : ObjSlotId} {n : ℕ} (hlive : s.manager.slots id ≠ .free) (hchannel : c < s.channels)
    (hn : n ≤ s.written id)
    (h : s.Safe c id n) : s'.Safe c id n := by
  intro place' hat'
  have hsaved := (hf.counters id hlive).2
  rcases Manager.At.step hf.step hat' with ⟨place, hat, hmoves⟩ | hbrings
  · have hgood := h place hat
    cases hmoves with
    | stays =>
      cases hat with
      | calling => exact hgood
      | queued => exact hgood
      | taken => exact hgood
      | running hrunning hc =>
        obtain ⟨hid, hop, hstarted⟩ := hgood
        exact ⟨hid, hop, by rw [hf.running _ _ _ hrunning]; exact hstarted⟩
      | notifying => exact fun hsuccess => (hgood hsuccess).trans hsaved
      | ended => exact fun hsuccess => (hgood hsuccess).trans hsaved
    | enqueued t hop => exact ⟨hgood.1, hop hgood.2⟩
    | merged t hop => exact ⟨hgood.1, hop hgood.2⟩
    | unnecessary t hinit => exact absurd hgood.2 hinit
    | taken => exact hgood
    | gone => exact nofun
    | ready hinit => exact absurd hgood.2 hinit
    | started =>
      -- the write-back starts after all stores that are done
      cases hat with
      | taken htook hc =>
        refine ⟨hgood.1, hgood.2, ?_⟩
        rw [hf.upgrade rfl _ htook, hgood.1]
        exact hn
    | finished _ _ outcome =>
      cases hat with
      | running hrunning hc =>
        obtain ⟨rfl, rfl, hstarted⟩ := hgood
        intro hsuccess
        obtain rfl : outcome = .success := of_decide_eq_true hsuccess
        exact hstarted.trans (hf.success rfl _ ⟨_, hrunning⟩)
    | notified _ success =>
      cases success with
      | true => exact fun _ => (hgood rfl).trans hsaved
      | false => exact nofun
  · exact absurd (hf.brings c place' hbrings) (Nat.ne_of_lt hchannel)

theorem Follows.flushOk {event : Event Channel} (hf : s.Follows event s') {call : FlushCall}
    {todo : List ObjSlotId} (hlive : ∀ id ∈ call.table, (s.manager.slots id).isLive = true)
    (h : s.FlushOk call todo) : s'.FlushOk call todo := by
  have hfree : ∀ id ∈ call.table, s.manager.slots id ≠ .free :=
    fun id hid => SlotMemory.ne_free (hlive id hid)
  refine ⟨h.ahead, fun id hid => ?_, fun c id hmem => ?_, fun id hid => ?_⟩
  · exact (h.since id hid).trans (hf.counters id (hfree id hid)).1
  · obtain ⟨hid, hchannel, hsafe⟩ := h.pending c id hmem
    exact ⟨hid, lt_of_lt_of_le hchannel hf.channels,
      hf.safe (hfree id hid) hchannel (h.since id hid) hsafe⟩
  · rcases h.covered id hid with htodo | hsaved | hpending
    · exact .inl htodo
    · exact .inr (.inl (hsaved.trans (hf.counters id (hfree id hid)).2))
    · exact .inr (.inr hpending)

theorem Follows.pcSafe {event : Event Channel} (hf : s.Follows event s') {pc : Pc}
    (hlive : ∀ id ∈ pc.slots, (s.manager.slots id).isLive = true) (h : s.PcSafe pc) :
    s'.PcSafe pc := by
  cases pc with
  | storing id => trivial
  | walking caller todo =>
    cases caller with
    | refresh => trivial
    | flush call => exact hf.flushOk (fun id hid => hlive id (List.mem_append_left _ hid)) h
  | invalidating caller id todo =>
    cases caller with
    | refresh => trivial
    | flush call => exact hf.flushOk (fun id hid => hlive id (List.mem_append_left _ hid)) h
  | released caller id todo =>
    cases caller with
    | refresh => trivial
    | flush call => exact hf.flushOk (fun id hid => hlive id (List.mem_append_left _ hid)) h
  | waiting call => exact hf.flushOk hlive h
  | returning call ok =>
    cases ok with
    | false => trivial
    | true =>
      intro id hid
      exact (h id hid).trans (hf.counters id (SlotMemory.ne_free (hlive id hid))).2

/-- An action of a thread alone. -/
theorem follows_same (hmanager : s'.manager = s.manager) (hchannels : s'.channels = s.channels)
    (hwritten : ∀ id, s.written id ≤ s'.written id) (hsaved : s'.saved = s.saved)
    (hstarted : s'.started = s.started) : s.Follows .close s' where
  step := by
    rw [hmanager]
    exact .nothing _
  counters := fun id _ => ⟨hwritten id, by rw [hsaved]⟩
  channels := hchannels.ge
  brings := nofun
  running := fun _ _ _ _ => hstarted
  upgrade := nofun
  success := nofun

theorem follows_record {event : Event Channel} {m : Manager Channel}
    (hallows : s.allows event = true)
    (hstep : s.manager.Step event m) : s.Follows event (s.record event m) where
  step := by
    rw [record_manager]
    exact hstep
  counters := by
    intro id hold
    obtain ⟨-, hwritten, hsaved⟩ := record_old event m hold
    exact ⟨hwritten.ge, hsaved⟩
  channels := (record_channels event m).ge
  brings := by
    intro c place hbrings
    cases hbrings <;> cases hallows
  running := fun _ _ _ hrunning => record_started event m hrunning
  upgrade := by
    rintro rfl entry htook
    exact record_upgrade m htook
  success := by
    rintro rfl id hrunning
    exact record_success m hrunning

/-! ## Invariant -/

/-- What the barrier rests on between any two actions. -/
structure BarrierInv (s : WriteBack) : Prop where
  fresh : ∀ c place, s.manager.At c place → c < s.channels
  unborn : ∀ id, (s.manager.slots id).isLive = true → (s.manager.slots id).resident = false →
    s.written id = 0
  threads : ∀ t pc, s.threads.lookup t = some pc → s.PcSafe pc

theorem barrierInv_new (queueLimit : ℕ) : (new queueLimit).BarrierInv where
  fresh := by
    intro c place hat
    cases hat with
    | calling hcaller => cases hcaller
    | queued hentry => cases hentry
    | taken htook => cases htook
    | running hrunning => cases hrunning
    | notifying hnotifying => cases hnotifying
    | ended hc => cases hc
  unborn := fun _ _ _ => rfl
  threads := fun _ _ hpc => by cases hpc

/-- The rule for one action: the threads that do not act follow the manager. -/
theorem BarrierInv.follow (h : s.Inv) (hb : s.BarrierInv) {event : Event Channel}
    (hf : s.Follows event s')
    (hbrings : ∀ c place, s.manager.Brings event c place → c < s'.channels)
    (hunborn : ∀ id, (s'.manager.slots id).isLive = true → (s'.manager.slots id).resident = false →
      s'.written id = 0)
    (hthreads : ∀ t pc, s'.threads.lookup t = some pc → s.threads.lookup t = some pc ∨
      s'.PcSafe pc) :
    s'.BarrierInv where
  fresh := by
    intro c place' hat'
    rcases Manager.At.step hf.step hat' with ⟨place, hat, -⟩ | hnew
    · exact lt_of_lt_of_le (hb.fresh c place hat) hf.channels
    · exact hbrings c place' hnew
  unborn := hunborn
  threads := by
    intro t pc hpc
    rcases hthreads t pc hpc with hold | hsafe
    · exact hf.pcSafe (h.threads t pc hold).live (hb.threads t pc hold)
    · exact hsafe

/-- A page that was not there has no stores. -/
theorem BarrierInv.unborn_step (hb : s.BarrierInv) {event : Event Channel} {m : Manager Channel}
    (hstep : s.manager.Step event m) {id : ObjSlotId} (hwas : (s.manager.slots id).isLive = true)
    (hlive : (m.slots id).isLive = true) (hresident : (m.slots id).resident = false) :
    s.written id = 0 := by
  refine hb.unborn id hwas ?_
  by_contra hwas'
  rw [Manager.resident_of_step hstep hlive (Bool.not_eq_false _ ▸ hwas')] at hresident
  cases hresident

/-- A thread goes on alone. -/
theorem BarrierInv.goto (h : s.Inv) (hb : s.BarrierInv) {t : ThreadId} (pc : Pc)
    (flags : ObjSlotId → BitVec 8) (hlive : ∀ id ∈ pc.slots, (s.manager.slots id).isLive = true)
    (hsafe : s.PcSafe pc) : ({ s.goto t pc with flags := flags } : WriteBack).BarrierInv := by
  have hf : s.Follows .close { s.goto t pc with flags := flags } :=
    follows_same rfl rfl (fun _ => le_rfl) rfl rfl
  refine hb.follow h hf nofun hb.unborn fun t' pc' hpc' => ?_
  change (s.goto t pc).threads.lookup t' = some pc' at hpc'
  rw [lookup_goto] at hpc'
  split_ifs at hpc'
  · obtain rfl := Option.some.inj hpc'
    exact .inr (hf.pcSafe hlive hsafe)
  · exact .inl hpc'

/-- A thread returns. -/
theorem BarrierInv.exit (h : s.Inv) (hb : s.BarrierInv) (t : ThreadId) : (s.exit t).BarrierInv := by
  refine hb.follow h (follows_same rfl rfl (fun _ => le_rfl) rfl rfl) nofun hb.unborn
    fun t' pc' hpc' => ?_
  rw [lookup_exit] at hpc'
  split_ifs at hpc'
  exact .inl hpc'

/-! ## One action -/

theorem BarrierInv.record (h : s.Inv) (hb : s.BarrierInv) {event : Event Channel}
    {m : Manager Channel} (hallows : s.allows event = true) (hstep : s.manager.Step event m) :
    (s.record event m).BarrierInv := by
  refine hb.follow h (follows_record hallows hstep) ?_ ?_ ?_
  · intro c place hbrings
    cases hbrings <;> cases hallows
  · intro id hlive hresident
    rw [record_manager] at hlive hresident
    rcases Manager.isLive_of_step hstep hlive with hwas | ⟨hfree, fabric, rfl⟩
    · rw [(record_old event m (SlotMemory.ne_free hwas)).2.1]
      exact hb.unborn_step hstep hwas hlive hresident
    · simp [WriteBack.record, hfree]
  · intro t pc hpc
    rw [record_threads] at hpc
    exact .inl hpc

/-- A call of the manager with the next channel. -/
theorem follows_call {event : Event Channel} {m : Manager Channel} (hstep : s.manager.Step event m)
    (hbrings : ∀ c place, s.manager.Brings event c place → c = s.channels)
    (hupgrade : event ≠ .upgrade) (hfinish : ∀ outcome, event ≠ .finish outcome) {channels : ℕ}
    (hchannels : s.channels ≤ channels) (threads : AList fun _ : ThreadId => Pc) :
    s.Follows event { s with manager := m, channels := channels, threads := threads } where
  step := hstep
  counters := fun _ _ => ⟨le_rfl, le_rfl⟩
  channels := hchannels
  brings := hbrings
  running := fun _ _ _ _ => rfl
  upgrade := fun hevent => absurd hevent hupgrade
  success := fun hevent => absurd hevent (hfinish _)

/-- `flush` passes by a page with clear flags. -/
theorem FlushOk.skip (hb : s.BarrierInv) {call : FlushCall} {id : ObjSlotId} {todo : List ObjSlotId}
    (h : s.FlushOk call (id :: todo)) (hlive : (s.manager.slots id).isLive = true)
    (hclean : (s.manager.slots id).resident = false ∨ call.since id ≤ s.saved id) :
    s.FlushOk call todo := by
  refine ⟨fun id' hid' => h.ahead id' (List.mem_cons_of_mem _ hid'), h.since, h.pending,
    fun id' hid' => ?_⟩
  rcases h.covered id' hid' with htodo | hrest
  · rcases List.mem_cons.1 htodo with rfl | htodo
    · right
      left
      rcases hclean with hresident | hsaved
      · have hzero := hb.unborn id' hlive hresident
        have hsince := h.since id' hid'
        omega
      · exact hsaved
    · exact .inl htodo
  · exact .inr hrest

/-- `flush` has queued a write-back with a new channel. -/
theorem FlushOk.enqueue {call : FlushCall} {id : ObjSlotId} {todo : List ObjSlotId}
    (h : s.FlushOk call (id :: todo)) {c : Channel} (hc : c < s.channels)
    (hsafe : s.Safe c id (call.since id)) :
    s.FlushOk { call with pending := call.pending ++ [(c, id)] } todo := by
  refine ⟨fun id' hid' => h.ahead id' (List.mem_cons_of_mem _ hid'), h.since, fun c' id' hmem => ?_,
    fun id' hid' => ?_⟩
  · rcases List.mem_append.1 hmem with hold | hnew
    · exact h.pending c' id' hold
    · obtain ⟨rfl, rfl⟩ := Prod.mk.inj (List.mem_singleton.1 hnew)
      exact ⟨h.ahead _ List.mem_cons_self, hc, hsafe⟩
  · rcases h.covered id' hid' with htodo | hsaved | ⟨c', hmem⟩
    · rcases List.mem_cons.1 htodo with rfl | htodo
      · exact .inr (.inr ⟨c, List.mem_append_right _ (List.mem_singleton_self _)⟩)
      · exact .inl htodo
    · exact .inr (.inl hsaved)
    · exact .inr (.inr ⟨c', List.mem_append_left _ hmem⟩)

/-- `recv` returns a success. -/
theorem FlushOk.receive {call : FlushCall} {todo : List ObjSlotId} {c : Channel} {id : ObjSlotId}
    {rest : List (Channel × ObjSlotId)} (h : s.FlushOk call todo)
    (hpending : call.pending = (c, id) :: rest) (hended : (c, .succeeded) ∈ s.manager.ended) :
    s.FlushOk { call with pending := rest } todo := by
  have hsaved : call.since id ≤ s.saved id := by
    obtain ⟨-, -, hsafe⟩ := h.pending c id (by rw [hpending]; exact List.mem_cons_self)
    exact hsafe _ (.ended hended) rfl
  refine ⟨h.ahead, h.since, fun c' id' hmem => ?_, fun id' hid' => ?_⟩
  · exact h.pending c' id' (by rw [hpending]; exact List.mem_cons_of_mem _ hmem)
  · rcases h.covered id' hid' with htodo | hsaved' | ⟨c', hmem⟩
    · exact .inl htodo
    · exact .inr (.inl hsaved')
    · rw [hpending] at hmem
      rcases List.mem_cons.1 hmem with heq | hrest
      · obtain ⟨-, rfl⟩ := Prod.mk.inj heq
        exact .inr (.inl hsaved)
      · exact .inr (.inr ⟨c', hrest⟩)

/-- A thread queues a write-back and goes on. -/
theorem BarrierInv.enqueue (h : s.Inv) (hb : s.BarrierInv) {t : ThreadId} {id : ObjSlotId}
    {callback : Option Channel} {m : Manager Channel} {pc : Pc} {channels : ℕ}
    (hf : s.Follows (.enqueueFlush t id callback)
      { s.goto t pc with manager := m, channels := channels })
    (hcallback : ∀ c, callback = some c → c < channels)
    (hsafe : ({ s.goto t pc with manager := m, channels := channels } : WriteBack).PcSafe pc) :
    ({ s.goto t pc with manager := m, channels := channels } : WriteBack).BarrierInv := by
  refine hb.follow h hf ?_ ?_ ?_
  · intro c place hbrings
    cases hbrings with
    | flush => exact hcallback c rfl
    | skipped => exact hcallback c rfl
  · intro id' hlive hresident
    rcases Manager.isLive_of_step hf.step hlive with hwas | ⟨-, fabric, hevent⟩
    · exact hb.unborn_step hf.step hwas hlive hresident
    · cases hevent
  · intro t' pc' hpc'
    change (s.goto t pc).threads.lookup t' = some pc' at hpc'
    rw [lookup_goto] at hpc'
    split_ifs at hpc'
    · obtain rfl := Option.some.inj hpc'
      exact .inr hsafe
    · exact .inl hpc'

/-- The callback that a thread queues with a write-back is safe to wait for. -/
theorem BarrierInv.safe_new (hb : s.BarrierInv) {t : ThreadId} {id : ObjSlotId}
    (hf : s.Follows (.enqueueFlush t id (some s.channels)) s')
    (hresident : (s.manager.slots id).resident = true) (n : ℕ) : s'.Safe s.channels id n := by
  intro place hat
  rcases Manager.At.step hf.step hat with ⟨place', hat', -⟩ | hbrings
  · exact absurd (hb.fresh _ _ hat') (lt_irrefl _)
  · cases hbrings with
    | flush => exact ⟨rfl, rfl⟩
    | skipped hnot =>
      rw [hresident] at hnot
      cases hnot

/-- One action keeps the barrier. -/
theorem BarrierInv.change (h : s.Inv) (hb : s.BarrierInv) {action : Action}
    (hcond : s.MeetsUnsaved action) (hchange : s.Change action s') : s'.BarrierInv := by
  cases hchange with
  | nothing => exact hb
  | manager hallows hstep => exact hb.record h hallows hstep
  | @faultIn t id m hidle hstep =>
    have hbrings : ∀ c place, s.manager.Brings (.enqueueInit t id (some s.channels)) c place →
        c = s.channels := by
      intro c place hbrings
      cases hbrings
      rfl
    have hf := follows_call hstep hbrings (by simp) (by simp) (Nat.le_succ s.channels) s.threads
    refine hb.follow h hf ?_ ?_ fun t' pc hpc => .inl hpc
    · intro c place hnew
      rw [hbrings c place hnew]
      exact Nat.lt_succ_self _
    · intro id' hlive hresident
      rcases Manager.isLive_of_step hstep hlive with hwas | ⟨-, fabric, hevent⟩
      · exact hb.unborn_step hstep hwas hlive hresident
      · cases hevent
  | @store t id hidle hresident =>
    refine hb.goto h (.storing id) s.flags ?_ trivial
    intro id' hid'
    obtain rfl := List.mem_singleton.1 hid'
    exact SlotMemory.isLive_of_resident hresident
  | @mark t id hpc =>
    have hresident := (h.threads t _ hpc).resident id rfl
    refine hb.follow h (follows_same rfl rfl ?_ rfl rfl) ?_ ?_ ?_
    · intro id'
      show s.written id' ≤ Function.update s.written id (s.written id + 1) id'
      by_cases hid : id' = id
      · subst hid
        rw [Function.update_self]
        exact Nat.le_succ _
      · rw [Function.update_of_ne hid]
    · intro c place hbrings
      cases hbrings
    · intro id' hlive hnot
      have hid : id' ≠ id := by
        rintro rfl
        rw [show (s.manager.slots id').resident = false from hnot] at hresident
        cases hresident
      exact (Function.update_of_ne hid _ _).trans (hb.unborn id' hlive hnot)
    · intro t' pc' hpc'
      change (s.exit t).threads.lookup t' = some pc' at hpc'
      rw [lookup_exit] at hpc'
      split_ifs at hpc'
      exact .inl hpc'
  | @refresh t table hidle hlive =>
    exact hb.goto h (.walking .refresh table) s.flags hlive trivial
  | @flush t table hidle hlive =>
    refine hb.goto h (.walking (.flush ⟨table, s.written, []⟩) table) s.flags ?_ ?_
    · intro id hid
      rcases List.mem_append.1 hid with htable | htodo
      · exact hlive id htable
      · exact hlive id htodo
    · refine ⟨fun _ hid => hid, fun _ _ => le_rfl, ?_, fun _ hid => .inl hid⟩
      intro c id hmem
      cases hmem
  | @skip t caller id todo hpc hcalls hclean =>
    have hlive := (h.threads t _ hpc).live
    refine hb.goto h (.walking caller todo) s.flags ?_ ?_
    · intro id' hid'
      refine hlive id' ?_
      simp only [Pc.slots, List.mem_append, List.mem_cons] at hid' ⊢
      tauto
    · cases caller with
      | refresh => trivial
      | flush call =>
        refine FlushOk.skip hb (hb.threads t _ hpc) (hlive id (by simp [Pc.slots])) ?_
        exact hclean.imp_right (hcond t call id todo rfl hpc)
  | @inspect t caller id todo hpc =>
    refine hb.goto h (.invalidating caller id todo) _ (h.threads t _ hpc).live ?_
    cases caller with
    | refresh => trivial
    | flush call => exact hb.threads t (.walking (.flush call) (id :: todo)) hpc
  | @invalidated t caller id todo hpc =>
    refine hb.goto h (.released caller id todo) _ (h.threads t _ hpc).live ?_
    cases caller with
    | refresh => trivial
    | flush call => exact hb.threads t (.invalidating (.flush call) id todo) hpc
  | @panicked t => exact hb.exit h t
  | @enqueueRefresh t id todo m hpc hok =>
    have hstep := Manager.step_cases h.manager.indexed hok
    have hbrings : ∀ c place, s.manager.Brings (.enqueueFlush t id none) c place →
        c = s.channels := by
      intro c place hbrings
      cases hbrings
    exact hb.enqueue h (follows_call hstep hbrings (by simp) (by simp) le_rfl _) (by simp) trivial
  | @enqueueFlush t call id todo m hpc hok =>
    have hstep := Manager.step_cases h.manager.indexed hok
    have hpcOk := h.threads t _ hpc
    have hbrings : ∀ c place, s.manager.Brings (.enqueueFlush t id (some s.channels)) c place →
        c = s.channels := by
      intro c place hbrings
      cases hbrings <;> rfl
    have hf := follows_call hstep hbrings (by simp) (by simp) (Nat.le_succ s.channels)
      (s.threads.insert t (.walking (.flush
        { call with pending := call.pending ++ [(s.channels, id)] })
        todo))
    refine hb.enqueue h hf ?_ ?_
    · rintro c ⟨⟩
      exact Nat.lt_succ_self _
    · have hok' := hf.flushOk (fun id' hid' => hpcOk.live id' (List.mem_append_left _ hid'))
        (show s.FlushOk call (id :: todo) from hb.threads t _ hpc)
      exact hok'.enqueue (Nat.lt_succ_self _) (hb.safe_new hf (hpcOk.resident id rfl) _)
  | @unwind t => exact hb.exit h t
  | @refreshed t => exact hb.exit h t
  | @walked t call hpc =>
    refine hb.goto h (.waiting call) s.flags ?_ (hb.threads t (.walking (.flush call) []) hpc)
    exact fun id hid => (h.threads t _ hpc).live id (List.mem_append_left _ hid)
  | @received t call c id rest hpc hpending hended =>
    refine hb.goto h (.waiting { call with pending := rest }) s.flags (h.threads t _ hpc).live ?_
    exact FlushOk.receive (hb.threads t _ hpc) hpending hended
  | @failed t call action hpc =>
    exact hb.goto h (.returning call false) s.flags (h.threads t _ hpc).live trivial
  | @succeeded t call hpc hpending =>
    refine hb.goto h (.returning call true) s.flags (h.threads t _ hpc).live ?_
    intro id hid
    rcases (show s.FlushOk call [] from hb.threads t _ hpc).covered id hid with
      htodo | hsaved | ⟨c, hmem⟩
    · cases htodo
    · exact hsaved
    · rw [hpending] at hmem
      cases hmem
  | @leave t => exact hb.exit h t

/-! ## Runs -/

/-- `flush` returns `Ok` only when every store from before the call is saved. -/
def Barrier (s : WriteBack) : Prop :=
  ∀ t call, s.threads.lookup t = some (.returning call true) →
    ∀ id ∈ call.table, call.since id ≤ s.saved id

/-- In a run in which `flush` meets no clean page with an unsaved store from before the call,
    it is a barrier. -/
theorem flush_waits (queueLimit : ℕ) (actions : List Action)
    (hactions : EveryAction MeetsUnsaved queueLimit actions)
    (hrun : run queueLimit actions = .ok s) : s.Barrier := by
  obtain ⟨-, hb⟩ := run_induction hactions (barrierInv_new queueLimit)
    (fun hinv hb hcond hchange => BarrierInv.change hinv hb hcond hchange) hrun
  intro t call hpc
  exact hb.threads t _ hpc

/-- A page is made and stored to, and a `flush` waits for its write-back. -/
def storeFlush : List Action :=
  storeRefresh.take 10 ++
    [.flush 6 [1], .inspect 6, .invalidated 6 false, .enqueue 6, .manager (.lock 6), .walked 6,
      .manager .dequeue, .manager .upgrade, .manager (.finish .success),
        .manager .notify, .receive 6,
      .receive 6]

theorem flush_waits_storeFlush :
    ∃ s, run 4 storeFlush = .ok s ∧ s.written 1 = 1 ∧ s.saved 1 = 1 ∧ s.Barrier := by
  refine ⟨_, rfl, rfl, rfl, flush_waits 4 storeFlush ?_ rfl⟩
  rintro before action after hactions s hrun t call id todo rfl hpc hclean
  have hat : storeFlush[before.length]? = some (.inspect t) := by
    rw [hactions]
    simp
  have hbefore : before = storeFlush.take before.length := by
    rw [hactions]
    simp
  have hlt : before.length < 22 := (List.getElem?_eq_some_iff.1 hat).1
  generalize before.length = k at hat hbefore hlt
  subst hbefore
  -- only the twelfth action looks at a page, and the page is dirty then
  interval_cases k
  all_goals try cases hat
  obtain rfl := Except.ok.inj hrun
  cases hpc
  revert hclean
  decide

/-- The `flush` comes after a `refresh` whose write-back is still queued. -/
def storeRefreshFlush : List Action :=
  storeRefresh ++ [.flush 6 [1], .inspect 6, .walked 6, .receive 6]

theorem flush_after_refresh :
    ¬ ∀ queueLimit actions s, run queueLimit actions = .ok s → s.Barrier := by
  intro hclaim
  obtain ⟨s, call, hrun, hpc, hid, hunsaved⟩ :
      ∃ s call, run 4 storeRefreshFlush = .ok s ∧ s.threads.lookup 6 = some (.returning call true) ∧
        1 ∈ call.table ∧ s.saved 1 < call.since 1 :=
    ⟨_, _, rfl, rfl, by decide, by decide⟩
  exact absurd (hclaim 4 storeRefreshFlush s hrun 6 call hpc 1 hid) (Nat.not_le_of_lt hunsaved)

end WriteBack

end RapidArm.Objects
