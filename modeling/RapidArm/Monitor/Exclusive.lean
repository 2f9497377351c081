import Mathlib.Data.BitVec
import RapidArm.Lib.Trace

/-!
# The exclusive monitor

The model of `io-mmu/src/cpu_fabric/exclusive_monitor.rs`, for 64-bit hosts. A
reservation is held in one of 257 buckets, chosen by a hash of the address; a bucket
has room for one address and a version, and a store that finds both unchanged bumps
the version before it is performed.

`ldrex` and `strex` hold the mutex of their bucket from the first line to the last, so
that calls on one bucket run one after the other; calls on different buckets share
only the memory, which each of them touches once. A call is therefore one step, and
any interleaving of the CPUs is a list of calls. What else happens to the memory in
between is a step of its own.

Results:
* `exclusive_atomic`: a store is performed only if no other one was performed on the
  same address since the load, and increments of a cell are never lost.
-/

namespace RapidArm.Monitor

open RapidArm.Lib

/-! ## Buckets -/

/-- `HostPointer`: a host address, which is not null. -/
structure HostPointer where
  addr : BitVec 64
  nonNull : addr ≠ 0
  deriving DecidableEq, Repr

/-- `BUCKET_COUNT`. -/
def BUCKET_COUNT : ℕ := 257

/-- `CACHE_LINE_SHIFT`. -/
def CACHE_LINE_SHIFT : ℕ := 6

/-- `reservation_index` (lines 67–79), with the constants for 64 bits. -/
def reservationIndex (ptr : HostPointer) : Fin BUCKET_COUNT :=
  let x := ptr.addr >>> CACHE_LINE_SHIFT
  let x := x ^^^ (x >>> 30)
  let x := x * 0xbf58476d1ce4e5b9
  let x := x ^^^ (x >>> 27)
  let x := x * 0x94d049bb133111eb
  let x := x ^^^ (x >>> 31)
  ⟨x.toNat % BUCKET_COUNT, Nat.mod_lt _ (by decide)⟩

/-- `Version`. -/
abbrev Version := BitVec 128

/-- `ExclusiveMonitorLoad`: a loaded value, tagged with its width. -/
inductive ExclusiveMonitorLoad
  | u128 (value : BitVec 128)
  | u64 (value : BitVec 64)
  | u32 (value : BitVec 32)
  | u16 (value : BitVec 16)
  | u8 (value : BitVec 8)
  deriving DecidableEq, Repr

/-- `Reservation`: what `ldrex` returns and `strex` is given back. -/
structure Reservation where
  version : Version
  value : ExclusiveMonitorLoad
  deriving DecidableEq, Repr

/-- `ReservationSlot`: the address last reserved in a bucket and its version. -/
structure ReservationSlot where
  ptr : Option HostPointer
  version : Version
  deriving DecidableEq, Repr

/-- `ReservationLost`. -/
inductive ReservationLost
  | lost
  deriving DecidableEq, Repr

/-- `ExclusiveMonitor`: the slots of the buckets. -/
structure ExclusiveMonitor where
  reservations : Fin BUCKET_COUNT → ReservationSlot

namespace ExclusiveMonitor

/-- `InitInPlace for ExclusiveMonitor`. -/
def init : ExclusiveMonitor := ⟨fun _ => ⟨none, 0⟩⟩

/-- The slot that `ptr_lock` locks. -/
def slot (m : ExclusiveMonitor) (ptr : HostPointer) : ReservationSlot :=
  m.reservations (reservationIndex ptr)

/-- The monitor after the locked slot was changed. -/
def setSlot (m : ExclusiveMonitor) (ptr : HostPointer) (slot : ReservationSlot) :
    ExclusiveMonitor :=
  ⟨Function.update m.reservations (reservationIndex ptr) slot⟩

/-- `ExclusiveMonitor::ldrex` (lines 216–237). `loadOp` reads the memory while the
    bucket is held. -/
def ldrex {M : Type} (m : ExclusiveMonitor) (memory : M) (ptr : HostPointer)
    (loadOp : M → ExclusiveMonitorLoad) : Reservation × ExclusiveMonitor :=
  let lock := m.slot ptr
  (⟨lock.version, loadOp memory⟩, m.setSlot ptr { lock with ptr := some ptr })

/-- How `strex` ends: with the result of `store_op`, without having called it, or with
    the panic of a version that cannot be increased. -/
inductive Strex
  | performed (result : Except ReservationLost Unit)
  | lost
  | exhausted
  deriving Repr

/-- `ExclusiveMonitor::strex` (lines 249–272). `storeOp` changes the memory while the
    bucket is held. -/
def strex {M : Type} (m : ExclusiveMonitor) (memory : M) (ptr : HostPointer) (version : Version)
    (storeOp : M → Except ReservationLost Unit × M) : Strex × ExclusiveMonitor × M :=
  let lock := m.slot ptr
  if lock.ptr ≠ some ptr ∨ lock.version ≠ version then (.lost, m, memory)
  else if lock.version = BitVec.allOnes 128 then (.exhausted, m, memory)
  else
    let (result, memory') := storeOp memory
    (.performed result, m.setSlot ptr { lock with version := lock.version + 1 }, memory')

/-- When `strex` calls `storeOp`. -/
theorem strex_eq_performed {M : Type} {m : ExclusiveMonitor} {memory : M} {ptr : HostPointer}
    {version : Version} {storeOp : M → Except ReservationLost Unit × M}
    {result : Except ReservationLost Unit} :
    (m.strex memory ptr version storeOp).1 = .performed result ↔
      m.slot ptr = ⟨some ptr, version⟩ ∧ version ≠ BitVec.allOnes 128 ∧
        (storeOp memory).1 = result := by
  unfold strex
  by_cases hlost : (m.slot ptr).ptr ≠ some ptr ∨ (m.slot ptr).version ≠ version
  · simp only [if_pos hlost]
    refine ⟨nofun, ?_⟩
    rintro ⟨hslot, -⟩
    simp [hslot] at hlost
  · simp only [if_neg hlost]
    rw [not_or, not_not, not_not] at hlost
    have hslot : m.slot ptr = ⟨some ptr, version⟩ := by rw [← hlost.1, ← hlost.2]
    rw [hslot]
    by_cases hmax : version = BitVec.allOnes 128
    · simp only [if_pos hmax]
      exact ⟨nofun, fun h => (h.2.1 hmax).elim⟩
    · simp only [if_neg hmax]
      exact ⟨fun h => ⟨trivial, hmax, Strex.performed.inj h⟩,
        fun h => congrArg Strex.performed h.2.2⟩

theorem slot_setSlot (m : ExclusiveMonitor) (ptr q : HostPointer) (s : ReservationSlot) :
    (m.setSlot ptr s).slot q =
      if reservationIndex q = reservationIndex ptr then s else m.slot q := by
  unfold slot setSlot
  simp only [Function.update_apply]

end ExclusiveMonitor

/-! ## Calls of the CPUs -/

section Calls

variable (Cpu M : Type)

/-- The monitor and the memory. -/
structure State where
  monitor : ExclusiveMonitor
  memory : M

/-- One call of a CPU, or anything else that happens to the memory. -/
inductive Call
  | ldrex (cpu : Cpu) (ptr : HostPointer) (loadOp : M → ExclusiveMonitorLoad)
  | strex (cpu : Cpu) (ptr : HostPointer) (version : Version)
      (storeOp : M → Except ReservationLost Unit × M)
  | other (change : M → M)

/-- What a call did: the reservation a load returned, or how a store ended. -/
inductive Event
  | loaded (cpu : Cpu) (ptr : HostPointer) (reservation : Reservation)
  | performed (cpu : Cpu) (ptr : HostPointer) (version : Version)
      (result : Except ReservationLost Unit)
  | lost (cpu : Cpu) (ptr : HostPointer) (version : Version)
  | exhausted (cpu : Cpu) (ptr : HostPointer) (version : Version)
  | other

end Calls

variable {Cpu M : Type}

/-- One call. -/
def step (s : State M) (call : Call Cpu M) : State M × Event Cpu :=
  match call with
  | .ldrex cpu ptr loadOp =>
    let (reservation, monitor) := s.monitor.ldrex s.memory ptr loadOp
    ({ s with monitor := monitor }, .loaded cpu ptr reservation)
  | .strex cpu ptr version storeOp =>
    match s.monitor.strex s.memory ptr version storeOp with
    | (.performed result, monitor, memory) => (⟨monitor, memory⟩, .performed cpu ptr version result)
    | (.lost, monitor, memory) => (⟨monitor, memory⟩, .lost cpu ptr version)
    | (.exhausted, monitor, memory) => (⟨monitor, memory⟩, .exhausted cpu ptr version)
  | .other change => ({ s with memory := change s.memory }, .other)

/-- What a step can do: a load reserves its address and keeps all versions; a store that
    is performed found its address and version in the bucket, and bumps the version;
    every other step leaves the monitor as it is. -/
inductive Step (s : State M) : Call Cpu M → State M → Event Cpu → Prop
  | loaded (cpu : Cpu) (ptr : HostPointer) (loadOp : M → ExclusiveMonitorLoad) (s' : State M)
      (memory : s'.memory = s.memory)
      (slots : ∀ q, s'.monitor.slot q = if reservationIndex q = reservationIndex ptr then
        { s.monitor.slot ptr with ptr := some ptr } else s.monitor.slot q) :
      Step s (.ldrex cpu ptr loadOp) s'
        (.loaded cpu ptr ⟨(s.monitor.slot ptr).version, loadOp s.memory⟩)
  | performed (cpu : Cpu) (ptr : HostPointer) (version : Version)
      (storeOp : M → Except ReservationLost Unit × M) (s' : State M)
      (reserved : s.monitor.slot ptr = ⟨some ptr, version⟩) (bounded : version ≠ BitVec.allOnes 128)
      (memory : s'.memory = (storeOp s.memory).2)
      (slots : ∀ q, s'.monitor.slot q = if reservationIndex q = reservationIndex ptr then
        ⟨some ptr, version + 1⟩ else s.monitor.slot q) :
      Step s (.strex cpu ptr version storeOp) s'
        (.performed cpu ptr version (storeOp s.memory).1)
  | refused (cpu : Cpu) (ptr : HostPointer) (version : Version)
      (storeOp : M → Except ReservationLost Unit × M) (e : Event Cpu)
      (event : e = .lost cpu ptr version ∨ e = .exhausted cpu ptr version) :
      Step s (.strex cpu ptr version storeOp) s e
  | other (change : M → M) : Step s (.other change) { s with memory := change s.memory } .other

theorem step_spec (s : State M) (call : Call Cpu M) :
    Step s call (step s call).1 (step s call).2 := by
  cases call with
  | ldrex cpu ptr loadOp =>
    exact .loaded cpu ptr loadOp _ rfl fun q => s.monitor.slot_setSlot ptr q _
  | strex cpu ptr version storeOp =>
    unfold step ExclusiveMonitor.strex
    by_cases hlost : (s.monitor.slot ptr).ptr ≠ some ptr ∨ (s.monitor.slot ptr).version ≠ version
    · simp only [if_pos hlost]
      exact .refused cpu ptr version storeOp _ (.inl rfl)
    · simp only [if_neg hlost]
      rw [not_or, not_not, not_not] at hlost
      have hslot : s.monitor.slot ptr = ⟨some ptr, version⟩ := by
        rw [← hlost.1, ← hlost.2]
      by_cases hmax : (s.monitor.slot ptr).version = BitVec.allOnes 128
      · simp only [if_pos hmax]
        exact .refused cpu ptr version storeOp _ (.inr rfl)
      · simp only [if_neg hmax]
        refine .performed cpu ptr version storeOp _ hslot (hlost.2 ▸ hmax) rfl fun q => ?_
        rw [ExclusiveMonitor.slot_setSlot, hslot]
  | other change => exact .other change

/-! ## Versions -/

/-- The versions only grow: no load or store of the log has seen a later version than
    its bucket has now, and no store an earlier one than a load before it. -/
structure Versions (s : State M) (log : List (Event Cpu)) : Prop where
  loads : ∀ cpu ptr r, .loaded cpu ptr r ∈ log →
    r.version.toNat ≤ (s.monitor.slot ptr).version.toNat
  stores : ∀ cpu ptr version result, .performed cpu ptr version result ∈ log →
    version.toNat < (s.monitor.slot ptr).version.toNat
  ordered : Always (fun before e => ∀ cpu ptr version result,
    e = .performed cpu ptr version result → ∀ cpu' r, .loaded cpu' ptr r ∈ before →
      r.version.toNat ≤ version.toNat) log

theorem versions_nil (s : State M) : Versions s ([] : List (Event Cpu)) :=
  ⟨by simp, by simp, always_nil _⟩

theorem toNat_add_one {version : Version} (h : version ≠ BitVec.allOnes 128) :
    (version + 1).toNat = version.toNat + 1 := by
  have hlt := version.isLt
  have hne : version.toNat ≠ 2 ^ 128 - 1 := by
    intro heq
    apply h
    apply BitVec.eq_of_toNat_eq
    rw [heq, BitVec.toNat_allOnes]
  rw [BitVec.toNat_add]
  show (version.toNat + 1) % 2 ^ 128 = _
  omega

/-- No step lowers a version. -/
theorem Step.version_le {s s' : State M} {call : Call Cpu M} {e : Event Cpu} (h : Step s call s' e)
    (q : HostPointer) : (s.monitor.slot q).version.toNat ≤ (s'.monitor.slot q).version.toNat := by
  have hbucket : ∀ ptr, reservationIndex q = reservationIndex ptr →
      s.monitor.slot q = s.monitor.slot ptr := fun ptr hq => congrArg s.monitor.reservations hq
  cases h with
  | loaded cpu ptr loadOp s' memory slots =>
    rw [slots]
    by_cases hq : reservationIndex q = reservationIndex ptr
    · rw [if_pos hq, hbucket ptr hq]
    · rw [if_neg hq]
  | performed cpu ptr version storeOp s' reserved bounded memory slots =>
    rw [slots]
    by_cases hq : reservationIndex q = reservationIndex ptr
    · rw [if_pos hq, hbucket ptr hq, reserved]
      show version.toNat ≤ (version + 1).toNat
      rw [toNat_add_one bounded]
      omega
    · rw [if_neg hq]
  | refused => exact le_refl _
  | other => exact le_refl _

/-- One more event, at versions that did not get lower. -/
theorem Versions.append {s s' : State M} {log : List (Event Cpu)} {e : Event Cpu}
    (h : Versions s log)
    (hle : ∀ q, (s.monitor.slot q).version.toNat ≤ (s'.monitor.slot q).version.toNat)
    (hload : ∀ cpu ptr r, e = .loaded cpu ptr r →
      r.version.toNat ≤ (s'.monitor.slot ptr).version.toNat)
    (hstore : ∀ cpu ptr version result, e = .performed cpu ptr version result →
      (s.monitor.slot ptr).version = version ∧
        version.toNat < (s'.monitor.slot ptr).version.toNat) : Versions s' (log ++ [e]) := by
  refine ⟨?_, ?_, always_concat.2 ⟨h.ordered, ?_⟩⟩
  · intro cpu ptr r hmem
    rcases List.mem_append.1 hmem with hold | hnew
    · exact (h.loads cpu ptr r hold).trans (hle ptr)
    · exact hload cpu ptr r (List.mem_singleton.1 hnew).symm
  · intro cpu ptr version result hmem
    rcases List.mem_append.1 hmem with hold | hnew
    · exact lt_of_lt_of_le (h.stores cpu ptr version result hold) (hle ptr)
    · exact (hstore cpu ptr version result (List.mem_singleton.1 hnew).symm).2
  · intro cpu ptr version result he cpu' r hmem
    rw [← (hstore cpu ptr version result he).1]
    exact h.loads cpu' ptr r hmem

theorem Versions.step {s s' : State M} {call : Call Cpu M} {e : Event Cpu} {log : List (Event Cpu)}
    (h : Versions s log) (hstep : Step s call s' e) : Versions s' (log ++ [e]) := by
  refine h.append hstep.version_le ?_ ?_
  · rintro cpu ptr r rfl
    cases hstep with
    | loaded cpu ptr loadOp s' memory slots =>
      rw [slots, if_pos rfl]
    | refused cpu ptr version storeOp e event => rcases event with he | he <;> cases he
  · rintro cpu ptr version result rfl
    cases hstep with
    | performed cpu ptr version storeOp s' reserved bounded memory slots =>
      rw [slots, if_pos rfl, reserved]
      refine ⟨rfl, ?_⟩
      show version.toNat < (version + 1).toNat
      rw [toNat_add_one bounded]
      omega
    | refused cpu ptr version storeOp e event => rcases event with he | he <;> cases he

/-- A store that is performed now finds no store on its address after a load of its
    version. -/
theorem Versions.notPerformed {s : State M} {log : List (Event Cpu)} (h : Versions s log)
    {ptr : HostPointer} {version : Version} (hslot : (s.monitor.slot ptr).version = version)
    {cpu : Cpu} {r : Reservation} {before after : List (Event Cpu)}
    (hlog : log = before ++ .loaded cpu ptr r :: after) (hr : r.version = version)
    {cpu' : Cpu} {version' : Version} {result : Except ReservationLost Unit} :
    .performed cpu' ptr version' result ∉ after := by
  intro hmem
  obtain ⟨mid, later, rfl⟩ := List.append_of_mem hmem
  have hge := h.ordered (before ++ .loaded cpu ptr r :: mid) _ later (by rw [hlog]; simp)
    cpu' ptr version' result rfl cpu r (by simp)
  have hlt := h.stores cpu' ptr version' result (by rw [hlog]; simp)
  rw [hslot, ← hr] at hlt
  omega

/-! ## Atomicity -/

/-- A store presents a version that an earlier load of its address returned. -/
def Presents (log : List (Event Cpu)) (call : Call Cpu M) : Prop :=
  ∀ cpu ptr version storeOp, call = .strex cpu ptr version storeOp →
    ∃ cpu' r, .loaded cpu' ptr r ∈ log ∧ r.version = version

/-- A store that was performed goes back to a load of its address and version, and since
    every such load no store was performed on the address. -/
def PerformedAlone (before : List (Event Cpu)) (e : Event Cpu) : Prop :=
  ∀ cpu ptr version result, e = .performed cpu ptr version result →
    (∃ cpu' r, .loaded cpu' ptr r ∈ before ∧ r.version = version) ∧
      ∀ earlier cpu' r since, before = earlier ++ .loaded cpu' ptr r :: since →
        r.version = version →
        ∀ cpu₁ version₁ result₁, .performed cpu₁ ptr version₁ result₁ ∉ since

theorem Versions.performedAlone {s s' : State M} {call : Call Cpu M} {e : Event Cpu}
    {log : List (Event Cpu)} (h : Versions s log) (hcall : Presents log call)
    (hstep : Step s call s' e) : PerformedAlone log e := by
  rintro cpu ptr version result rfl
  cases hstep with
  | performed cpu ptr version storeOp s' reserved bounded memory slots =>
    refine ⟨hcall cpu ptr version storeOp rfl, ?_⟩
    intro earlier cpu' r since hlog hr cpu₁ version₁ result₁
    exact h.notPerformed (by rw [reserved]) hlog hr
  | refused cpu ptr version storeOp e event => rcases event with he | he <;> cases he

/-- A value plus `n`, in its width. -/
def ExclusiveMonitorLoad.add (n : ℕ) : ExclusiveMonitorLoad → ExclusiveMonitorLoad
  | u128 value => u128 (value + BitVec.ofNat 128 n)
  | u64 value => u64 (value + BitVec.ofNat 64 n)
  | u32 value => u32 (value + BitVec.ofNat 32 n)
  | u16 value => u16 (value + BitVec.ofNat 16 n)
  | u8 value => u8 (value + BitVec.ofNat 8 n)

/-- All updates of the cell at `ptr` are increments by `ldrex` and `strex`: a load on
    `ptr` reads the cell, a store on `ptr` writes the successor of a value loaded with its
    version or fails and writes nothing, and nothing else writes the cell. -/
def Increments (ptr : HostPointer) (cell : M → ExclusiveMonitorLoad) (log : List (Event Cpu)) :
    Call Cpu M → Prop
  | .ldrex _ q loadOp => q = ptr → loadOp = cell
  | .strex _ q version storeOp =>
    (q = ptr → ∃ cpu r, .loaded cpu ptr r ∈ log ∧ r.version = version ∧
      ∀ m, ((storeOp m).1 = .ok () → cell (storeOp m).2 = r.value.add 1) ∧
        ((storeOp m).1 ≠ .ok () → cell (storeOp m).2 = cell m)) ∧
    (q ≠ ptr → ∀ m, cell (storeOp m).2 = cell m)
  | .other change => ∀ m, cell (change m) = cell m

/-- A store on `ptr` that returned `Ok`. -/
def Event.okOn (ptr : HostPointer) : Event Cpu → Bool
  | .performed _ q _ (.ok _) => q = ptr
  | _ => false

theorem ExclusiveMonitorLoad.add_zero (value : ExclusiveMonitorLoad) : value.add 0 = value := by
  cases value <;> simp [add]

theorem ExclusiveMonitorLoad.add_add_one (value : ExclusiveMonitorLoad) (n : ℕ) :
    (value.add n).add 1 = value.add (n + 1) := by
  cases value <;> simp [add, BitVec.add_assoc, BitVec.ofNat_add]

/-- The cell counts the stores that returned `Ok`, and a load whose version still stands
    has read the current value. -/
structure Counts (ptr : HostPointer) (cell : M → ExclusiveMonitorLoad)
    (initial : ExclusiveMonitorLoad)
    (s : State M) (log : List (Event Cpu)) : Prop where
  versions : Versions s log
  total : cell s.memory = initial.add (log.countP (Event.okOn ptr))
  current : ∀ cpu r, .loaded cpu ptr r ∈ log → r.version = (s.monitor.slot ptr).version →
    r.value = cell s.memory

/-- The same cell and the same or a higher version keep the loads current. -/
theorem Counts.append {ptr : HostPointer} {cell : M → ExclusiveMonitorLoad}
    {initial : ExclusiveMonitorLoad} {s s' : State M} {log : List (Event Cpu)} {e : Event Cpu}
    (h : Counts ptr cell initial s log) (hversions : Versions s' (log ++ [e]))
    (hok : e.okOn ptr = false) (hcell : cell s'.memory = cell s.memory)
    (hload : ∀ cpu r, e = .loaded cpu ptr r → r.value = cell s.memory)
    (hle : (s.monitor.slot ptr).version.toNat ≤ (s'.monitor.slot ptr).version.toNat) :
    Counts ptr cell initial s' (log ++ [e]) := by
  refine ⟨hversions, ?_, ?_⟩
  · rw [hcell, h.total, List.countP_append, List.countP_singleton, hok]
    rfl
  · intro cpu r hmem hr
    rw [hcell]
    rcases List.mem_append.1 hmem with hold | hnew
    · refine h.current cpu r hold (BitVec.eq_of_toNat_eq ?_)
      have hle' := h.versions.loads cpu ptr r hold
      rw [hr] at hle' ⊢
      omega
    · exact hload cpu r (List.mem_singleton.1 hnew).symm

theorem Counts.step {ptr : HostPointer} {cell : M → ExclusiveMonitorLoad}
    {initial : ExclusiveMonitorLoad} {s s' : State M} {call : Call Cpu M} {e : Event Cpu}
    {log : List (Event Cpu)} (h : Counts ptr cell initial s log)
    (hinc : Increments ptr cell log call)
    (hstep : Step s call s' e) : Counts ptr cell initial s' (log ++ [e]) := by
  have hversions := h.versions.step hstep
  have hle := hstep.version_le ptr
  cases hstep with
  | loaded cpu q loadOp s' memory slots =>
    refine h.append hversions rfl (by rw [memory]) ?_ hle
    intro cpu' r he
    obtain ⟨rfl, rfl, rfl⟩ := Event.loaded.inj he
    show loadOp s.memory = _
    rw [hinc rfl]
  | performed cpu q version storeOp s' reserved bounded memory slots =>
    by_cases hq : q = ptr
    · subst hq
      obtain ⟨cpu₁, r, hmem, hr, hop⟩ := hinc.1 rfl
      by_cases hok : (storeOp s.memory).1 = .ok ()
      · -- the loaded value is the current one, and every older load is outdated now
        have hvalue : r.value = cell s.memory := h.current cpu₁ r hmem (by rw [reserved, hr])
        refine ⟨hversions, ?_, ?_⟩
        · rw [memory, (hop s.memory).1 hok, hvalue, h.total, ExclusiveMonitorLoad.add_add_one,
            List.countP_append, List.countP_singleton, hok]
          simp [Event.okOn]
        · intro cpu' r' hmem' hr'
          rcases List.mem_append.1 hmem' with hold | hnew
          · have hle' := h.versions.loads cpu' q r' hold
            rw [hr', slots, if_pos rfl, reserved] at hle'
            change (version + 1).toNat ≤ version.toNat at hle'
            rw [toNat_add_one bounded] at hle'
            omega
          · simp at hnew
      · refine h.append hversions ?_ (by rw [memory, (hop s.memory).2 hok]) (by simp) hle
        cases hres : (storeOp s.memory).1 with
        | ok u => exact (hok hres).elim
        | error _ => rfl
    · refine h.append hversions ?_ (by rw [memory, hinc.2 hq s.memory]) (by simp) hle
      cases (storeOp s.memory).1 with
      | ok u => exact decide_eq_false hq
      | error _ => rfl
  | refused cpu q version storeOp e event =>
    rcases event with rfl | rfl
    · exact h.append hversions rfl rfl (by simp) hle
    · exact h.append hversions rfl rfl (by simp) hle
  | other change => exact h.append hversions rfl (hinc s.memory) (by simp) hle

/-- In every interleaving a store is performed only if no other one was performed on its
    address since the load it goes back to; so, if a cell is only updated by increments,
    its value is the initial one plus the number of stores that returned `Ok`. -/
theorem exclusive_atomic (memory : M) (calls : List (Call Cpu M))
    (hpresents : Meets step (fun _ log call => Presents log call) ⟨.init, memory⟩ calls) :
    Always PerformedAlone (execute step ⟨.init, memory⟩ calls).2 ∧
      ∀ ptr cell, Meets step (fun _ log call => Increments ptr cell log call) ⟨.init,
        memory⟩ calls →
        cell (execute step ⟨.init, memory⟩ calls).1.memory =
          (cell memory).add ((execute step ⟨.init, memory⟩ calls).2.countP (Event.okOn ptr)) := by
  constructor
  · have hinv := Meets.invariant step (I := fun s log => Versions s log ∧ Always PerformedAlone log)
      ⟨versions_nil _, always_nil _⟩ ?_ hpresents
    · exact hinv.2
    intro s log call hinv hcall
    have hstep := step_spec s call
    exact ⟨hinv.1.step hstep, always_concat.2 ⟨hinv.2, hinv.1.performedAlone hcall hstep⟩⟩
  · intro ptr cell hinc
    refine (Meets.invariant step (I := Counts ptr cell (cell memory)) ?_ ?_ hinc).total
    · exact ⟨versions_nil _, (ExclusiveMonitorLoad.add_zero _).symm, by simp⟩
    · intro s log call hinv hcall
      exact hinv.step hcall (step_spec s call)

/-- The cell of the two CPUs below. -/
def cellPtr : HostPointer := ⟨0x1000, by decide⟩

/-- Two CPUs load a cell and both store its successor; the second one fails and tries
    again. -/
def twoIncrements : List (Call (Fin 2) (BitVec 32)) :=
  [.ldrex 0 cellPtr .u32, .ldrex 1 cellPtr .u32, .strex 0 cellPtr 0 fun _ => (.ok (), 1),
    .strex 1 cellPtr 0 fun _ => (.ok (), 1), .ldrex 1 cellPtr .u32,
    .strex 1 cellPtr 1 fun _ => (.ok (), 2)]

theorem exclusive_atomic_twoIncrements :
    Always PerformedAlone (execute step ⟨.init, 0⟩ twoIncrements).2 ∧
      (execute step ⟨.init, 0⟩ twoIncrements).1.memory = 2 := by
  have hpresents : Meets step (fun _ log call => Presents log call) ⟨.init, 0⟩ twoIncrements := by
    show Always _ (((((([] ++ [_]) ++ [_]) ++ [_]) ++ [_]) ++ [_]) ++ [_])
    simp only [always_concat]
    refine ⟨⟨⟨⟨⟨⟨always_nil _, ?_⟩, ?_⟩, ?_⟩, ?_⟩, ?_⟩, ?_⟩
    all_goals intro cpu ptr version storeOp hcall
    all_goals cases hcall
    · exact ⟨0, ⟨0, .u32 0⟩, List.mem_cons_self, rfl⟩
    · exact ⟨0, ⟨0, .u32 0⟩, List.mem_cons_self, rfl⟩
    · exact ⟨1, ⟨1, .u32 1⟩, List.mem_of_getElem? (i := 4) rfl, rfl⟩
  have hinc : Meets step (fun _ log call => Increments cellPtr .u32 log call) ⟨.init, 0⟩
      twoIncrements := by
    show Always _ (((((([] ++ [_]) ++ [_]) ++ [_]) ++ [_]) ++ [_]) ++ [_])
    simp only [always_concat]
    refine ⟨⟨⟨⟨⟨⟨always_nil _, fun _ => rfl⟩, fun _ => rfl⟩, ?_⟩, ?_⟩, fun _ => rfl⟩, ?_⟩
    · exact ⟨fun _ => ⟨0, ⟨0, .u32 0⟩, List.mem_cons_self, rfl, fun _ => ⟨fun _ => rfl, by simp⟩⟩,
        fun h => (h rfl).elim⟩
    · exact ⟨fun _ => ⟨0, ⟨0, .u32 0⟩, List.mem_cons_self, rfl, fun _ => ⟨fun _ => rfl, by simp⟩⟩,
        fun h => (h rfl).elim⟩
    · exact ⟨fun _ => ⟨1, ⟨1, .u32 1⟩, List.mem_of_getElem? (i := 4) rfl, rfl,
        fun _ => ⟨fun _ => rfl, by simp⟩⟩, fun h => (h rfl).elim⟩
  obtain ⟨halone, hcount⟩ := exclusive_atomic 0 twoIncrements hpresents
  refine ⟨halone, ?_⟩
  have hvalue := hcount cellPtr .u32 hinc
  have htwo : (execute step ⟨.init, 0⟩ twoIncrements).2.countP (Event.okOn cellPtr) = 2 := by decide
  rw [htwo] at hvalue
  exact ExclusiveMonitorLoad.u32.inj hvalue

end RapidArm.Monitor
