import RapidArm.Monitor.Exclusive
import RapidArm.Mmu.Access

/-!
# The exclusive callbacks of the JIT

The callbacks `ldrexb` to `ldrexd`, `strexb` to `strexd` and `clrex` of
`jit-compiler-core/src/ir/ffi_support.rs` (lines 81–236), on any number of execution
contexts that share one monitor and one host memory. The host is little-endian, so
that `to_le` changes nothing.

A callback uses the address space of its context only through
`resolve_addr_exclusive`. What that returns is part of the state, and may change at
any time between two callbacks, since mappings and TLBs do.

A context keeps the version and the value of its last exclusive load, but not the
address: the address is kept in the bucket of the monitor, where the loads of other
contexts, and other loads of the same context, put theirs. So a store can find its
own address and the version it presents in a bucket that its load never touched.

Results:
* `stored_justified_iff`: every exclusive store of a run that returned `Stored` goes
  back to the pending load of its context, on the same address and with no store to it
  in between, if and only if no store of the run is of this kind (`Collides`).
* `stored_without_load`: a run in which one is.
-/

namespace RapidArm.Monitor

open RapidArm.Lib RapidArm.Ir RapidArm.Mmu

/-! ## Values and host memory -/

/-- `ExclusiveMonitorLoad::from` at the type of a width. -/
def ExclusiveMonitorLoad.ofWidth : (w : IntWidth) → BitVec w.bits → ExclusiveMonitorLoad
  | .w8, value => .u8 value
  | .w16, value => .u16 value
  | .w32, value => .u32 value
  | .w64, value => .u64 value

/-- The value of a load, if it has this width. -/
def ExclusiveMonitorLoad.toWidth : (w : IntWidth) → ExclusiveMonitorLoad → Option (BitVec w.bits)
  | .w8, .u8 value => some value
  | .w16, .u16 value => some value
  | .w32, .u32 value => some value
  | .w64, .u64 value => some value
  | _, _ => none

theorem ExclusiveMonitorLoad.toWidth_eq_some {w w' : IntWidth} {value : BitVec w.bits}
    {value' : BitVec w'.bits} (h : (ofWidth w value).toWidth w' = some value') : w = w' := by
  cases w <;> cases w' <;> first | rfl | cases h

/-- The bytes of the host. -/
abbrev HostMemory := BitVec 64 → BitVec 8

/-- An atomic load of a width. -/
def HostMemory.load (memory : HostMemory) (w : IntWidth) (ptr : HostPointer) : BitVec w.bits :=
  loadLeAt w (fun i => memory (ptr.addr + BitVec.ofNat 64 i)) 0

/-- An atomic store of a width. -/
def HostMemory.store (memory : HostMemory) {w : IntWidth} (ptr : HostPointer)
    (value : BitVec w.bits) :
    HostMemory :=
  (toLeBytes value).zipIdx.foldl
    (fun memory p => Function.update memory (ptr.addr + BitVec.ofNat 64 p.2) p.1) memory

/-- `compare_exchange`, as the `store_op` of `strex` uses it. -/
def HostMemory.compareExchange {w : IntWidth} (ptr : HostPointer) (old new : BitVec w.bits)
    (memory : HostMemory) : Except ReservationLost Unit × HostMemory :=
  if memory.load w ptr = old then (.ok (), memory.store ptr new) else (.error .lost, memory)

/-! ## Contexts -/

/-- `MemOp`. -/
inductive MemOp
  | load
  | store
  | rwm
  deriving DecidableEq, Repr

/-- `ExecContext`: the reservation and the pending memory fault. -/
structure ExecContext where
  exclusiveMonitorReservation : Option Reservation
  currentMemFault : Option (MemOp × MemoryFault)

/-- `ExecContext::initial`. -/
def ExecContext.initial : ExecContext := ⟨none, none⟩

/-- The contexts of one fabric. `resolveAddrExclusive` is what the function of this name
    returns now for a context, an access size, an address and a permission. -/
structure System (Ctx : Type) where
  monitor : ExclusiveMonitor
  memory : HostMemory
  contexts : Ctx → ExecContext
  resolveAddrExclusive : Ctx → ℕ → BitVec 64 → MemProt → Except MemoryFault HostPointer

section Callbacks

variable {Ctx : Type} [DecidableEq Ctx]

/-- What a callback did. A store that ran its compare-and-exchange `stored` or was
    `rejected` there. -/
inductive ExclusiveEvent (Ctx : Type)
  | loaded (ctx : Ctx) (width : IntWidth) (ptr : HostPointer) (reservation : Reservation)
  | loadFault (ctx : Ctx) (fault : MemoryFault)
  | stored (ctx : Ctx) (width : IntWidth) (ptr : HostPointer) (version : Version)
  | rejected (ctx : Ctx) (ptr : HostPointer) (version : Version)
  | failed (ctx : Ctx)
  | storeFault (ctx : Ctx) (fault : MemoryFault)
  | exhausted (ctx : Ctx)
  | cleared (ctx : Ctx)
  | other

namespace System

/-- The system with one context changed. -/
def setContext (s : System Ctx) (ctx : Ctx) (context : ExecContext) : System Ctx :=
  { s with contexts := Function.update s.contexts ctx context }

/-- `clrex`. -/
def clrex (s : System Ctx) (ctx : Ctx) : System Ctx × ExclusiveEvent Ctx :=
  (s.setContext ctx { s.contexts ctx with exclusiveMonitorReservation := none }, .cleared ctx)

/-- The load of `make_ld_st_rex_pair!` (lines 155–177) at one width. -/
def ldrexAt (w : IntWidth) (s : System Ctx) (ctx : Ctx) (vaddr : BitVec 64) :
    System Ctx × ExclusiveEvent Ctx :=
  match s.resolveAddrExclusive ctx w.bytes vaddr MemProt.READ with
  | .error fault =>
    (s.setContext ctx { s.contexts ctx with currentMemFault := some (.load, fault) },
      .loadFault ctx fault)
  | .ok ptr =>
    let (token, monitor) := s.monitor.ldrex s.memory ptr
      fun memory => .ofWidth w (memory.load w ptr)
    ({ s with monitor := monitor }.setContext ctx
        { s.contexts ctx with exclusiveMonitorReservation := some token },
      .loaded ctx w ptr token)

/-- The store of `make_ld_st_rex_pair!` (lines 179–224) at one width. -/
def strexAt (w : IntWidth) (s : System Ctx) (ctx : Ctx) (vaddr : BitVec 64)
    (value : BitVec w.bits) :
    System Ctx × ExclusiveEvent Ctx :=
  let taken := s.setContext ctx { s.contexts ctx with exclusiveMonitorReservation := none }
  match (s.contexts ctx).exclusiveMonitorReservation with
  | none => (taken, .failed ctx)
  | some reservation =>
    match reservation.value.toWidth w with
    | none => (taken, .failed ctx)
    | some oldValue =>
      match s.resolveAddrExclusive ctx w.bytes vaddr MemProt.WRITE with
      | .error fault =>
        (taken.setContext ctx ⟨none, some (.store, fault)⟩, .storeFault ctx fault)
      | .ok ptr =>
        match s.monitor.strex s.memory ptr reservation.version
            (HostMemory.compareExchange ptr oldValue value) with
        | (.performed (.ok ()), monitor, memory) =>
          ({ taken with monitor := monitor, memory := memory },
            .stored ctx w ptr reservation.version)
        | (.performed (.error _), monitor, memory) =>
          ({ taken with monitor := monitor, memory := memory },
            .rejected ctx ptr reservation.version)
        | (.lost, monitor, memory) =>
          ({ taken with monitor := monitor, memory := memory }, .failed ctx)
        | (.exhausted, monitor, memory) =>
          ({ taken with monitor := monitor, memory := memory }, .exhausted ctx)

def ldrexb (s : System Ctx) := ldrexAt .w8 s
def ldrexh (s : System Ctx) := ldrexAt .w16 s
def ldrex (s : System Ctx) := ldrexAt .w32 s
def ldrexd (s : System Ctx) := ldrexAt .w64 s

def strexb (s : System Ctx) := strexAt .w8 s
def strexh (s : System Ctx) := strexAt .w16 s
def strex (s : System Ctx) := strexAt .w32 s
def strexd (s : System Ctx) := strexAt .w64 s

end System

/-- A callback of a context, by the width of its access, or what happens besides: any
    change of the memory, and of what addresses resolve to. -/
inductive Callback (Ctx : Type)
  | ldrex (ctx : Ctx) (width : IntWidth) (vaddr : BitVec 64)
  | strex (ctx : Ctx) (width : IntWidth) (vaddr : BitVec 64) (value : BitVec width.bits)
  | clrex (ctx : Ctx)
  | write (change : HostMemory → HostMemory)
  | remap (resolve : Ctx → ℕ → BitVec 64 → MemProt → Except MemoryFault HostPointer)

/-- One callback. -/
def System.step (s : System Ctx) : Callback Ctx → System Ctx × ExclusiveEvent Ctx
  | .ldrex ctx .w8 vaddr => s.ldrexb ctx vaddr
  | .ldrex ctx .w16 vaddr => s.ldrexh ctx vaddr
  | .ldrex ctx .w32 vaddr => s.ldrex ctx vaddr
  | .ldrex ctx .w64 vaddr => s.ldrexd ctx vaddr
  | .strex ctx .w8 vaddr value => s.strexb ctx vaddr value
  | .strex ctx .w16 vaddr value => s.strexh ctx vaddr value
  | .strex ctx .w32 vaddr value => s.strex ctx vaddr value
  | .strex ctx .w64 vaddr value => s.strexd ctx vaddr value
  | .clrex ctx => s.clrex ctx
  | .write change => ({ s with memory := change s.memory }, .other)
  | .remap resolve => ({ s with resolveAddrExclusive := resolve }, .other)

theorem System.step_ldrex (s : System Ctx) (ctx : Ctx) (w : IntWidth) (vaddr : BitVec 64) :
    s.step (.ldrex ctx w vaddr) = s.ldrexAt w ctx vaddr := by
  cases w <;> rfl

theorem System.step_strex (s : System Ctx) (ctx : Ctx) (w : IntWidth) (vaddr : BitVec 64)
    (value : BitVec w.bits) : s.step (.strex ctx w vaddr value) = s.strexAt w ctx vaddr value := by
  cases w <;> rfl

/-! ## Pending loads -/

/-- The event ends what was pending for a context: a new load, an exclusive store, with
    whatever status, or `clrex`. -/
def ExclusiveEvent.Takes (ctx : Ctx) : ExclusiveEvent Ctx → Prop
  | loaded c _ _ _ | stored c _ _ _ | rejected c _ _ | failed c | storeFault c _ | exhausted c
  | cleared c => c = ctx
  | loadFault _ _ | other => False

/-- The most recent successful exclusive load of a context, if neither `clrex` nor an
    exclusive store of the context came after it; `since` is what did. -/
def Pending (log : List (ExclusiveEvent Ctx)) (ctx : Ctx) (w : IntWidth) (ptr : HostPointer)
    (r : Reservation) (since : List (ExclusiveEvent Ctx)) : Prop :=
  (∃ earlier, log = earlier ++ .loaded ctx w ptr r :: since) ∧ ∀ e ∈ since, ¬ e.Takes ctx

/-- A store that returned `Stored` goes back to a pending load of its context, of the
    same width and on the same address, and no store to the address came after it. -/
def Justified (before : List (ExclusiveEvent Ctx)) (e : ExclusiveEvent Ctx) : Prop :=
  ∀ ctx w ptr version, e = .stored ctx w ptr version →
    ∃ r since, Pending before ctx w ptr r since ∧ ∀ ctx' w' version',
      .stored ctx' w' ptr version' ∉ since

/-- The exclusive store that should not succeed and does: the pending load of its context
    has its width but was on another address, and yet the bucket of the store's own
    address holds that address with the version of the load, and the memory there the
    value of the load. -/
def Collides (s : System Ctx) (log : List (ExclusiveEvent Ctx)) (call : Callback Ctx) : Prop :=
  ∃ ctx w vaddr value ptr other r since, call = .strex ctx w vaddr value ∧
    s.resolveAddrExclusive ctx w.bytes vaddr MemProt.WRITE = .ok ptr ∧
    Pending log ctx w other r since ∧ other ≠ ptr ∧
    s.monitor.slot ptr = ⟨some ptr, r.version⟩ ∧ r.version ≠ BitVec.allOnes 128 ∧
    r.value.toWidth w = some (s.memory.load w ptr)

section Pending

variable {log since since' : List (ExclusiveEvent Ctx)} {ctx : Ctx} {w w' : IntWidth}
  {ptr ptr' : HostPointer} {r r' : Reservation} {e : ExclusiveEvent Ctx}

omit [DecidableEq Ctx] in
theorem Pending.unique (h : Pending log ctx w ptr r since)
    (h' : Pending log ctx w' ptr' r' since') :
    w = w' ∧ ptr = ptr' ∧ r = r' ∧ since = since' := by
  obtain ⟨⟨earlier, hlog⟩, hsince⟩ := h
  obtain ⟨⟨earlier', hlog'⟩, hsince'⟩ := h'
  obtain ⟨hload, hs⟩ := last_unique (P := ExclusiveEvent.Takes ctx) (hlog.symm.trans hlog') rfl rfl
    hsince hsince'
  obtain ⟨-, hw, hptr, hr⟩ := ExclusiveEvent.loaded.inj hload
  exact ⟨hw, hptr, hr, hs⟩

omit [DecidableEq Ctx] in
theorem pending_loaded : Pending (log ++ [.loaded ctx w ptr r]) ctx w ptr r [] :=
  ⟨⟨log, rfl⟩, by simp⟩

omit [DecidableEq Ctx] in
theorem Pending.concat (h : Pending log ctx w ptr r since) (he : ¬ e.Takes ctx) :
    Pending (log ++ [e]) ctx w ptr r (since ++ [e]) := by
  obtain ⟨⟨earlier, rfl⟩, hsince⟩ := h
  refine ⟨⟨earlier, by simp⟩, ?_⟩
  intro x hx
  rcases List.mem_append.1 hx with hold | hnew
  · exact hsince x hold
  · rw [List.mem_singleton.1 hnew]
    exact he

omit [DecidableEq Ctx] in
/-- What is pending after one more event was pending before it, or is that event. -/
theorem Pending.of_concat (h : Pending (log ++ [e]) ctx w ptr r since) :
    e = .loaded ctx w ptr r ∨ ¬ e.Takes ctx ∧ ∃ since', Pending log ctx w ptr r since' := by
  obtain ⟨⟨earlier, hlog⟩, hsince⟩ := h
  rcases List.eq_nil_or_concat since with rfl | ⟨since', x, rfl⟩
  · left
    exact List.singleton_inj.1 (List.append_inj' hlog rfl).2
  · right
    have hlog' : log ++ [e] = (earlier ++ .loaded ctx w ptr r :: since') ++ [x] := by
      rw [hlog]
      simp
    obtain ⟨rfl, hx⟩ := List.append_inj' hlog' rfl
    obtain rfl := List.singleton_inj.1 hx
    exact ⟨hsince _ (by simp), since', ⟨earlier, rfl⟩, fun y hy => hsince y (by simp [hy])⟩

end Pending

/-! ## What a callback does -/

/-- What an event means for the monitor. -/
def ExclusiveEvent.monitor : ExclusiveEvent Ctx → List (Event Ctx)
  | loaded ctx _ ptr r => [.loaded ctx ptr r]
  | stored ctx _ ptr version => [.performed ctx ptr version (.ok ())]
  | rejected ctx ptr version => [.performed ctx ptr version (.error .lost)]
  | _ => []

/-- The state of the monitor and the memory. -/
def System.shared (s : System Ctx) : State HostMemory := ⟨s.monitor, s.memory⟩

/-- The reservation of a context. -/
def System.reservation (s : System Ctx) (ctx : Ctx) : Option Reservation :=
  (s.contexts ctx).exclusiveMonitorReservation

/-- What the event of a callback says: a load that succeeds is one of the monitor and its
    token is kept; any other event that takes the reservation leaves none. -/
structure System.Does (s s' : System Ctx) (e : ExclusiveEvent Ctx) : Prop where
  versions : ∀ log, Versions s.shared log → Versions s'.shared (log ++ e.monitor)
  loaded : ∀ ctx w ptr r, e = .loaded ctx w ptr r →
    s'.reservation ctx = some r ∧ ∃ value, r.value = .ofWidth w value
  taken : ∀ ctx, e.Takes ctx → (∀ w ptr r, e ≠ .loaded ctx w ptr r) → s'.reservation ctx = none
  others : ∀ ctx, ¬ e.Takes ctx → s'.reservation ctx = s.reservation ctx

theorem System.does_ldrexAt (w : IntWidth) (s : System Ctx) (ctx : Ctx) (vaddr : BitVec 64) :
    s.Does (s.ldrexAt w ctx vaddr).1 (s.ldrexAt w ctx vaddr).2 := by
  unfold ldrexAt
  cases hres : s.resolveAddrExclusive ctx w.bytes vaddr MemProt.READ with
  | error fault =>
    refine ⟨?_, ?_, ?_, ?_⟩
    · intro log h
      show Versions s.shared (log ++ [])
      rwa [List.append_nil]
    · intro _ _ _ _ he
      cases he
    · intro _ he
      exact he.elim
    · intro c _
      by_cases hc : c = ctx
      · subst hc
        simp [reservation, setContext]
      · simp [reservation, setContext, hc]
  | ok ptr =>
    refine ⟨?_, ?_, ?_, ?_⟩
    · intro log h
      exact h.step (step_spec s.shared (.ldrex ctx ptr fun memory =>
        .ofWidth w (memory.load w ptr)))
    · intro c w' ptr' r he
      obtain ⟨rfl, rfl, rfl, rfl⟩ := ExclusiveEvent.loaded.inj he
      exact ⟨by simp [reservation, setContext], _, rfl⟩
    · intro c hc hne
      obtain rfl : ctx = c := hc
      exact (hne _ _ _ rfl).elim
    · intro c hc
      have hne : c ≠ ctx := fun heq => hc heq.symm
      simp [reservation, setContext, hne]

/-- The four ways an exclusive store that found a reservation of its width and resolved
    its address can end. -/
theorem System.does_strexAt (w : IntWidth) (s : System Ctx) (ctx : Ctx) (vaddr : BitVec 64)
    (value : BitVec w.bits) :
    s.Does (s.strexAt w ctx vaddr value).1 (s.strexAt w ctx vaddr value).2 := by
  have hreservation : ∀ (s' : System Ctx) (e : ExclusiveEvent Ctx),
      (∀ log, Versions s.shared log → Versions s'.shared (log ++ e.monitor)) →
      (∀ c, e.Takes c ↔ ctx = c) → (∀ c w ptr r, e ≠ .loaded c w ptr r) →
      (∀ c, s'.reservation c = if c = ctx then none else s.reservation c) → s.Does s' e := by
    intro s' e hversions htakes hne hres
    refine ⟨hversions, fun c w ptr r he => (hne c w ptr r he).elim, ?_, ?_⟩
    · intro c hc _
      rw [hres, if_pos ((htakes c).1 hc).symm]
    · intro c hc
      rw [hres, if_neg fun heq => hc ((htakes c).2 heq.symm)]
  have htaken : ∀ c, (s.setContext ctx
      { s.contexts ctx with exclusiveMonitorReservation := none }).reservation c =
      if c = ctx then none else s.reservation c := by
    intro c
    by_cases hc : c = ctx
    · subst hc
      simp [reservation, setContext]
    · simp [reservation, setContext, hc]
  have hquiet : ∀ log : List (Event Ctx), Versions s.shared log →
      Versions s.shared (log ++ []) := by
    intro log h
    rwa [List.append_nil]
  unfold strexAt
  cases hr : (s.contexts ctx).exclusiveMonitorReservation with
  | none => exact hreservation _ _ hquiet (fun _ => Iff.rfl) (by intros; nofun) htaken
  | some r =>
    simp only
    cases hold : r.value.toWidth w with
    | none => exact hreservation _ _ hquiet (fun _ => Iff.rfl) (by intros; nofun) htaken
    | some oldValue =>
      simp only
      cases hptr : s.resolveAddrExclusive ctx w.bytes vaddr MemProt.WRITE with
      | error fault =>
        refine hreservation _ _ hquiet (fun _ => Iff.rfl) (by intros; nofun) ?_
        intro c
        by_cases hc : c = ctx
        · subst hc
          simp [reservation, setContext]
        · simp [reservation, setContext, hc]
      | ok ptr =>
        have hstep := step_spec s.shared
          (.strex ctx ptr r.version (HostMemory.compareExchange ptr oldValue value))
        unfold Monitor.step System.shared at hstep
        simp only at hstep ⊢
        rcases hm : s.monitor.strex s.memory ptr r.version
          (HostMemory.compareExchange ptr oldValue value) with ⟨⟨_ | _⟩ | _ | _, monitor, memory⟩
        all_goals simp only [hm] at hstep ⊢
        · exact hreservation _ _ (fun log h => h.step hstep) (fun _ =>
            Iff.rfl) (by intros; nofun) htaken
        · exact hreservation _ _ (fun log h => h.step hstep) (fun _ =>
            Iff.rfl) (by intros; nofun) htaken
        · cases hstep
          exact hreservation _ _ hquiet (fun _ => Iff.rfl) (by intros; nofun) htaken
        · cases hstep
          exact hreservation _ _ hquiet (fun _ => Iff.rfl) (by intros; nofun) htaken

theorem System.does_step (s : System Ctx) (call : Callback Ctx) :
    s.Does (s.step call).1 (s.step call).2 := by
  cases call with
  | ldrex ctx w vaddr =>
    rw [step_ldrex]
    exact s.does_ldrexAt w ctx vaddr
  | strex ctx w vaddr value =>
    rw [step_strex]
    exact s.does_strexAt w ctx vaddr value
  | clrex ctx =>
    refine ⟨?_, fun _ _ _ _ he => (by cases he), ?_, ?_⟩
    · intro log h
      show Versions s.shared (log ++ [])
      rwa [List.append_nil]
    · rintro c rfl _
      simp [step, clrex, reservation, setContext]
    · intro c hc
      have hne : c ≠ ctx := fun heq => hc heq.symm
      simp [step, clrex, reservation, setContext, hne]
  | write change =>
    refine ⟨fun log h => ?_, fun _ _ _ _ he => (by cases he), fun c hc => hc.elim, fun _ _ => rfl⟩
    exact (List.append_nil log).symm ▸ ⟨h.loads, h.stores, h.ordered⟩
  | remap resolve =>
    refine ⟨fun log h => ?_, fun _ _ _ _ he => (by cases he), fun c hc => hc.elim, fun _ _ => rfl⟩
    exact (List.append_nil log).symm ▸ ⟨h.loads, h.stores, h.ordered⟩

/-- When an exclusive store returns `Stored`. -/
theorem System.step_eq_stored {s : System Ctx} {call : Callback Ctx} {ctx : Ctx} {w : IntWidth}
    {ptr : HostPointer} {version : Version} :
    (s.step call).2 = .stored ctx w ptr version ↔ ∃ vaddr value r, call = .strex ctx w vaddr value ∧
      s.reservation ctx = some r ∧ r.version = version ∧
      s.resolveAddrExclusive ctx w.bytes vaddr MemProt.WRITE = .ok ptr ∧
      s.monitor.slot ptr = ⟨some ptr, version⟩ ∧ version ≠ BitVec.allOnes 128 ∧
      r.value.toWidth w = some (s.memory.load w ptr) := by
  cases call with
  | ldrex ctx' w' vaddr =>
    refine ⟨fun h => ?_, fun ⟨_, _, _, h, _⟩ => (by cases h)⟩
    rw [step_ldrex] at h
    unfold ldrexAt at h
    split at h <;> cases h
  | clrex ctx' => exact ⟨fun h => (by cases h), fun ⟨_, _, _, h, _⟩ => (by cases h)⟩
  | write change => exact ⟨fun h => (by cases h), fun ⟨_, _, _, h, _⟩ => (by cases h)⟩
  | remap resolve => exact ⟨fun h => (by cases h), fun ⟨_, _, _, h, _⟩ => (by cases h)⟩
  | strex ctx' w' vaddr value =>
    rw [step_strex]
    constructor
    · intro h
      unfold strexAt at h
      simp only at h
      split at h
      · cases h
      · rename_i r hr
        split at h
        · cases h
        · rename_i oldValue hold
          split at h
          · cases h
          · rename_i ptr' hptr
            rcases hm : s.monitor.strex s.memory ptr' r.version
              (HostMemory.compareExchange ptr' oldValue value) with
                ⟨⟨_ | _⟩ | _ | _, monitor, memory⟩
            all_goals simp only [hm] at h
            all_goals cases h
            obtain ⟨hslot, hmax, hcas⟩ :=
              ExclusiveMonitor.strex_eq_performed.1 (congrArg Prod.fst hm)
            refine ⟨vaddr, value, r, rfl, hr, rfl, hptr, hslot, hmax, ?_⟩
            unfold HostMemory.compareExchange at hcas
            split_ifs at hcas with heq
            rw [heq, hold]
    · rintro ⟨vaddr', value', r, hcall, hr, rfl, hptr, hslot, hmax, hvalue⟩
      cases hcall
      have hm := ExclusiveMonitor.strex_eq_performed.2
        (⟨hslot, hmax, by simp [HostMemory.compareExchange]⟩ : _ ∧ _ ∧
          (HostMemory.compareExchange ptr (s.memory.load w ptr) value' s.memory).1 = .ok ())
      unfold strexAt
      simp only [show (s.contexts ctx).exclusiveMonitorReservation = some r from hr, hvalue, hptr]
      rcases hrun : s.monitor.strex s.memory ptr r.version
        (HostMemory.compareExchange ptr (s.memory.load w ptr) value') with ⟨out, monitor, memory⟩
      rw [hrun] at hm
      obtain rfl : out = .performed (.ok ()) := hm
      rfl

/-! ## Justified stores -/

/-- The reservation of a context is that of its pending load, and the log agrees with the
    versions of the monitor. -/
structure System.Tracks (s : System Ctx) (log : List (ExclusiveEvent Ctx)) : Prop where
  versions : Versions s.shared (log.flatMap ExclusiveEvent.monitor)
  widths : ∀ ctx w ptr r, .loaded ctx w ptr r ∈ log → ∃ value, r.value = .ofWidth w value
  held : ∀ ctx r, s.reservation ctx = some r ↔ ∃ w ptr since, Pending log ctx w ptr r since

omit [DecidableEq Ctx] in
theorem System.Tracks.step {s s' : System Ctx} {e : ExclusiveEvent Ctx}
    {log : List (ExclusiveEvent Ctx)} (h : s.Tracks log) (hdoes : s.Does s' e) :
    s'.Tracks (log ++ [e]) := by
  refine ⟨?_, ?_, ?_⟩
  · rw [List.flatMap_append, List.flatMap_singleton]
    exact hdoes.versions _ h.versions
  · intro ctx w ptr r hmem
    rcases List.mem_append.1 hmem with hold | hnew
    · exact h.widths ctx w ptr r hold
    · exact (hdoes.loaded ctx w ptr r (List.mem_singleton.1 hnew).symm).2
  · intro ctx r
    by_cases htakes : e.Takes ctx
    · by_cases hload : ∃ w ptr r', e = .loaded ctx w ptr r'
      · obtain ⟨w, ptr, r', rfl⟩ := hload
        rw [(hdoes.loaded ctx w ptr r' rfl).1]
        constructor
        · intro heq
          obtain rfl := Option.some.inj heq
          exact ⟨w, ptr, [], pending_loaded⟩
        · rintro ⟨w', ptr', since, hp⟩
          rw [(hp.unique pending_loaded).2.2.1]
      · rw [not_exists] at hload
        rw [hdoes.taken ctx htakes fun w ptr r' he => hload w ⟨ptr, r', he⟩]
        refine ⟨nofun, ?_⟩
        rintro ⟨w, ptr, since, hp⟩
        rcases hp.of_concat with he | ⟨hnot, -⟩
        · exact (hload w ⟨ptr, r, he⟩).elim
        · exact (hnot htakes).elim
    · rw [hdoes.others ctx htakes, h.held]
      constructor
      · rintro ⟨w, ptr, since, hp⟩
        exact ⟨w, ptr, since ++ [e], hp.concat htakes⟩
      · rintro ⟨w, ptr, since, hp⟩
        rcases hp.of_concat with rfl | ⟨-, since', hp'⟩
        · exact (htakes rfl).elim
        · exact ⟨w, ptr, since', hp'⟩

omit [DecidableEq Ctx] in
/-- A store to the address of a pending load, after it, has changed the version. -/
theorem System.Tracks.notStored {s : System Ctx} {log since : List (ExclusiveEvent Ctx)}
    (h : s.Tracks log) {ctx : Ctx} {w : IntWidth} {ptr : HostPointer} {r : Reservation}
    (hp : Pending log ctx w ptr r since) (hslot : (s.monitor.slot ptr).version = r.version)
    {ctx' : Ctx} {w' : IntWidth} {version' : Version} : .stored ctx' w' ptr version' ∉ since := by
  intro hmem
  obtain ⟨⟨earlier, rfl⟩, -⟩ := hp
  have hperformed : .performed ctx' ptr version' (.ok ()) ∈ since.flatMap ExclusiveEvent.monitor :=
    List.mem_flatMap.2 ⟨_, hmem, List.mem_singleton.2 rfl⟩
  have hlog : (earlier ++ .loaded ctx w ptr r :: since).flatMap ExclusiveEvent.monitor =
      earlier.flatMap ExclusiveEvent.monitor ++
        .loaded ctx ptr r :: since.flatMap ExclusiveEvent.monitor := by
    simp [ExclusiveEvent.monitor]
  exact h.versions.notPerformed hslot hlog rfl hperformed

/-- In a tracked state a callback logs a justified event unless it collides. -/
theorem System.Tracks.justified_iff {s : System Ctx} {log : List (ExclusiveEvent Ctx)}
    (h : s.Tracks log) (call : Callback Ctx) :
    Justified log (s.step call).2 ↔ ¬ Collides s log call := by
  constructor
  · rintro hjust ⟨ctx, w, vaddr, value, ptr, other, r, since, rfl, hptr, hp, hne, hslot,
      hmax, hvalue⟩
    have hheld := (h.held ctx r).2 ⟨w, other, since, hp⟩
    have hstored := step_eq_stored.2 ⟨vaddr, value, r, rfl, hheld, rfl, hptr, hslot, hmax, hvalue⟩
    obtain ⟨r', since', hp', -⟩ := hjust ctx w ptr r.version hstored
    exact hne (hp.unique hp').2.1
  · intro hnot ctx w ptr version hstored
    obtain ⟨vaddr, value, r, rfl, hheld, rfl, hptr, hslot, hmax, hvalue⟩ := step_eq_stored.1 hstored
    obtain ⟨w', ptr', since, hp⟩ := (h.held ctx r).1 hheld
    obtain ⟨value', hofWidth⟩ := h.widths ctx w' ptr' r (by
      obtain ⟨⟨earlier, rfl⟩, -⟩ := hp
      simp)
    rw [hofWidth] at hvalue
    obtain rfl := ExclusiveMonitorLoad.toWidth_eq_some hvalue
    rw [← hofWidth] at hvalue
    by_cases hsame : ptr' = ptr
    · subst hsame
      exact ⟨r, since, hp, fun ctx' w' version' => h.notStored hp (by rw [hslot])⟩
    · exact (hnot ⟨ctx, w', vaddr, value, ptr, ptr', r, since, rfl, hptr, hp, hsame, hslot, hmax,
        hvalue⟩).elim

/-- The contexts before the first callback. -/
def System.initial (memory : HostMemory)
    (resolve : Ctx → ℕ → BitVec 64 → MemProt → Except MemoryFault HostPointer) : System Ctx :=
  ⟨.init, memory, fun _ => .initial, resolve⟩

omit [DecidableEq Ctx] in
theorem System.tracks_initial (memory : HostMemory)
    (resolve : Ctx → ℕ → BitVec 64 → MemProt → Except MemoryFault HostPointer) :
    (System.initial memory resolve).Tracks [] := by
  refine ⟨versions_nil _, by simp, ?_⟩
  intro ctx r
  refine ⟨nofun, ?_⟩
  rintro ⟨w, ptr, since, ⟨earlier, hlog⟩, -⟩
  simp at hlog

/-- In every interleaving of the callbacks of any number of contexts: every exclusive
    store that returned `Stored` is justified if and only if no exclusive store collides
    with a reservation that its context does not have. -/
theorem stored_justified_iff (memory : HostMemory)
    (resolve : Ctx → ℕ → BitVec 64 → MemProt → Except MemoryFault HostPointer)
    (calls : List (Callback Ctx)) :
    Always Justified (execute System.step (.initial memory resolve) calls).2 ↔
      Meets System.step (fun s log call => ¬ Collides s log call)
        (.initial memory resolve) calls := by
  have htracks : ∀ calls : List (Callback Ctx),
      (execute System.step (.initial memory resolve) calls).1.Tracks
        (execute System.step (.initial memory resolve) calls).2 := by
    intro calls
    refine Meets.invariant System.step (C := fun _ _ _ =>
      True) (System.tracks_initial memory resolve)
      ?_ fun _ _ _ _ => trivial
    intro s log call h _
    exact h.step (s.does_step call)
  induction calls using List.reverseRecOn with
  | nil => exact ⟨fun _ => always_nil _, fun _ => always_nil _⟩
  | append_singleton calls call ih =>
    rw [execute_concat]
    unfold Meets at ih ⊢
    rw [always_concat, always_concat]
    exact and_congr ih ((htracks calls).justified_iff call)

/-! ### A store without a load -/

/-- Every address but zero is mapped to the same address of the host. -/
def identityResolve : Bool → ℕ → BitVec 64 → MemProt → Except MemoryFault HostPointer :=
  fun _ _ vaddr _ => if h : vaddr ≠ 0 then .ok ⟨vaddr, h⟩ else .error (.generalProtection vaddr)

/-- Of two contexts one loads from `0x2000`, the other from `0x1000`, and the other stores
    to `0x2000`. -/
def loadThenStoreElsewhere : List (Callback Bool) :=
  [.ldrex true .w32 0x2000, .ldrex false .w32 0x1000, .strex false .w32 0x2000 7]

theorem stored_without_load :
    ¬ Always Justified
      (execute System.step (.initial (fun _ => 0) identityResolve) loadThenStoreElsewhere).2 := by
  have hlog :
      (execute System.step (.initial (fun _ => 0) identityResolve) loadThenStoreElsewhere).2 =
      [.loaded true .w32 ⟨0x2000, by decide⟩ ⟨0, .u32 0⟩,
        .loaded false .w32 ⟨0x1000, by decide⟩ ⟨0, .u32 0⟩] ++
        [.stored false .w32 ⟨0x2000, by decide⟩ 0] := rfl
  rw [hlog, always_concat]
  rintro ⟨-, hjust⟩
  obtain ⟨r, since, hp, -⟩ := hjust false .w32 ⟨0x2000, by decide⟩ 0 rfl
  have hload : Pending ([.loaded true .w32 ⟨0x2000, by decide⟩ ⟨0, .u32 0⟩] ++
      [.loaded false .w32 ⟨0x1000, by decide⟩ ⟨0, .u32 0⟩]) false .w32 ⟨0x1000, by decide⟩
      ⟨0, .u32 0⟩ [] := pending_loaded
  have hptr := congrArg HostPointer.addr (hp.unique hload).2.1
  exact absurd hptr (by decide)

end Callbacks

end RapidArm.Monitor
