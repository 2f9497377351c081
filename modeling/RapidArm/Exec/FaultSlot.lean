import Mathlib.Data.List.Perm.Basic
import Mathlib.Data.List.Induction

/-!
# The fault slot

`FFISafeMemoryFault` (`jit-compiler-core/src/exec_context.rs`, lines 25–124) keeps the last guest
memory fault until the dispatcher takes it. The callbacks record with `set_fault`; the emitted
code of `vm_access` (`ir/mod.rs`, lines 2403–2446) writes three of the five fields itself. The
stored bus error has a validity bit of its own, which only a bus fault sets and only a bus fault
or `take_memory_fault` clears.

Results:
* `SlotInv.step`: an error is there whenever the validity bit is set, and it is the last bus error
  since the last take.
* `takes_last_iff`: each take returns the fault recorded last exactly if no general protection
  fault was recorded after a bus error that is still stored; in every case each bus error is
  dropped or returned once.
-/

namespace RapidArm.Exec

/-- `MemOp` (lines 13–23). -/
inductive MemOp
  | load
  | store
  | rwm
  deriving DecidableEq, Repr

/-- `MemoryFaultReason` (`io-mmu/src/fault.rs`, lines 7–18) with its error. -/
inductive FaultReason (E : Type)
  | generalProtection
  | memoryBus (error : E)
  deriving DecidableEq, Repr

/-- `MemoryFault` with the kind of the access that raised it. -/
structure Fault (E : Type) where
  vaddr : BitVec 64
  reason : FaultReason E
  memOp : MemOp
  deriving DecidableEq, Repr

/-- `FFISafeMemoryFault` (lines 31–37). The bytes of `bus_error` are `none` while no error may be
    read from them. -/
structure FFISafeMemoryFault (E : Type) where
  wasRealMemoryTrap : Bool
  vaddr : BitVec 64
  memOp : MemOp
  hasBusError : Bool
  busError : Option E
  deriving DecidableEq, Repr

namespace FFISafeMemoryFault

variable {E : Type}

/-- `FFISafeMemoryFault::new` (lines 47–57). -/
def new : FFISafeMemoryFault E := ⟨false, 0, .load, false, none⟩

/-- `drop_bus_error` (lines 59–64): the error that is dropped. Reading an error that is not there
    is undefined behaviour, `none`. -/
def dropBusError (slot : FFISafeMemoryFault E) : Option (List E × FFISafeMemoryFault E) :=
  if slot.hasBusError then do
    let error ← slot.busError
    return ([error], { slot with hasBusError := false, busError := none })
  else some ([], slot)

/-- `take_bus_error` (lines 66–74). -/
def takeBusError (slot : FFISafeMemoryFault E) : Option (Option E × FFISafeMemoryFault E) :=
  match slot.hasBusError with
  | true => do
    let error ← slot.busError
    return (some error, { slot with hasBusError := false, busError := none })
  | false => some (none, slot)

/-- `set_fault` (lines 76–93): the errors it drops. -/
def setFault (slot : FFISafeMemoryFault E) (memOp : MemOp) (vaddr : BitVec 64)
    (reason : FaultReason E) : Option (List E × FFISafeMemoryFault E) :=
  let slot := { slot with vaddr, memOp, wasRealMemoryTrap := true }
  match reason with
  | .generalProtection => some ([], slot)
  | .memoryBus error => do
    let (dropped, slot) ← slot.dropBusError
    return (dropped, { slot with busError := some error, hasBusError := true })

/-- The stores of the trap block of `vm_access`. -/
def recordInline (slot : FFISafeMemoryFault E) (memOp : MemOp) (vaddr : BitVec 64) :
    FFISafeMemoryFault E :=
  { slot with vaddr, memOp, wasRealMemoryTrap := true }

/-- `take_memory_fault` (lines 95–117). -/
def takeMemoryFault (slot : FFISafeMemoryFault E) :
    Option (Option (Fault E) × FFISafeMemoryFault E) :=
  if slot.wasRealMemoryTrap = false then some (none, slot)
  else do
    let (busError, slot) ← { slot with wasRealMemoryTrap := false }.takeBusError
    let reason := match busError with
      | none => .generalProtection
      | some busError => .memoryBus busError
    return (some ⟨slot.vaddr, reason, slot.memOp⟩, slot)

end FFISafeMemoryFault

/-! ## Sequences of calls -/

/-- What happens to a slot. -/
inductive SlotCall (E : Type)
  | setFault (memOp : MemOp) (vaddr : BitVec 64) (reason : FaultReason E)
  | recordInline (memOp : MemOp) (vaddr : BitVec 64)
  | takeMemoryFault
  deriving DecidableEq, Repr

/-- What comes out of a slot: what its takes return, and the bus errors it drops. -/
structure SlotOutput (E : Type) where
  takes : List (Option (Fault E))
  dropped : List E
  deriving DecidableEq, Repr

section Calls

variable {E : Type}

/-- One call. -/
def SlotCall.run (slot : FFISafeMemoryFault E) :
    SlotCall E → Option (SlotOutput E × FFISafeMemoryFault E)
  | setFault memOp vaddr reason => do
    let (dropped, slot) ← slot.setFault memOp vaddr reason
    return (⟨[], dropped⟩, slot)
  | recordInline memOp vaddr => some (⟨[], []⟩, slot.recordInline memOp vaddr)
  | takeMemoryFault => do
    let (fault, slot) ← slot.takeMemoryFault
    return (⟨[fault], []⟩, slot)

/-- A sequence of calls, after which the slot is dropped. -/
def runSlot (slot : FFISafeMemoryFault E) : List (SlotCall E) → Option (SlotOutput E)
  | [] => do
    let (dropped, _) ← slot.dropBusError
    return ⟨[], dropped⟩
  | call :: calls => do
    let (output, slot) ← call.run slot
    let rest ← runSlot slot calls
    return ⟨output.takes ++ rest.takes, output.dropped ++ rest.dropped⟩

/-- The fault a call records. -/
def SlotCall.recorded : SlotCall E → Option (Fault E)
  | setFault memOp vaddr reason => some ⟨vaddr, reason, memOp⟩
  | recordInline memOp vaddr => some ⟨vaddr, .generalProtection, memOp⟩
  | takeMemoryFault => none

/-- What the takes should return: each the fault recorded last since the one before. `pending` are
    the faults recorded since the last take. -/
def lastFaults (pending : List (Fault E)) : List (SlotCall E) → List (Option (Fault E))
  | [] => []
  | call :: calls =>
    match call.recorded with
    | some fault => lastFaults (pending ++ [fault]) calls
    | none => pending.getLast? :: lastFaults [] calls

/-- The error of a bus fault. -/
def Fault.busError (fault : Fault E) : Option E :=
  match fault.reason with
  | .generalProtection => none
  | .memoryBus error => some error

/-- The bus errors of faults. -/
def busErrors (faults : List (Fault E)) : List E := faults.filterMap Fault.busError

/-- After a bus error, the last fault is one too. -/
def EndsInBus (pending : List (Fault E)) : Prop :=
  ∀ fault, pending.getLast? = some fault → fault.reason = .generalProtection →
    busErrors pending = []

/-- No take finds a general protection fault that was recorded after a bus error. -/
def NoStaleBusError (pending : List (Fault E)) : List (SlotCall E) → Prop
  | [] => True
  | call :: calls =>
    match call.recorded with
    | some fault => NoStaleBusError (pending ++ [fault]) calls
    | none => EndsInBus pending ∧ NoStaleBusError [] calls

/-- The bus errors that calls store. -/
def storedErrors (calls : List (SlotCall E)) : List E :=
  busErrors (calls.filterMap SlotCall.recorded)

/-- The bus errors that takes return. -/
def returnedErrors (takes : List (Option (Fault E))) : List E := busErrors (takes.filterMap id)

end Calls

/-! ## The invariant -/

section Invariant

variable {E : Type}

/-- The slot after the faults `pending` since the last take. -/
structure SlotInv (slot : FFISafeMemoryFault E) (pending : List (Fault E)) : Prop where
  trap : slot.wasRealMemoryTrap = true ↔ pending ≠ []
  last : ∀ fault, pending.getLast? = some fault → slot.vaddr = fault.vaddr ∧
    slot.memOp = fault.memOp
  error : slot.busError = (busErrors pending).getLast?
  valid : slot.hasBusError = true ↔ busErrors pending ≠ []

theorem slotInv_new : SlotInv (FFISafeMemoryFault.new : FFISafeMemoryFault E) [] where
  trap := by simp [FFISafeMemoryFault.new]
  last fault h := by simp at h
  error := rfl
  valid := by simp [FFISafeMemoryFault.new, busErrors]

theorem busErrors_append (faults faults' : List (Fault E)) :
    busErrors (faults ++ faults') = busErrors faults ++ busErrors faults' := List.filterMap_append

/-- The errors that a slot still has to drop or return. -/
def heldErrors (slot : FFISafeMemoryFault E) : List E := slot.busError.toList

/-- Dropping the error: it is there if the validity bit says so. -/
theorem SlotInv.dropBusError {slot : FFISafeMemoryFault E} {pending : List (Fault E)}
    (h : SlotInv slot pending) :
    slot.dropBusError =
      some (heldErrors slot, { slot with hasBusError := false, busError := none }) := by
  unfold FFISafeMemoryFault.dropBusError heldErrors
  have herror := h.error
  have hvalid := h.valid
  cases hbus : busErrors pending with
  | nil =>
    rw [hbus] at herror hvalid
    have hfalse : slot.hasBusError = false := by simpa using hvalid
    have hnone : slot.busError = none := by simpa using herror
    obtain ⟨_, _, _, _, _⟩ := slot
    subst hfalse hnone
    rfl
  | cons e rest =>
    rw [hbus] at herror hvalid
    have htrue : slot.hasBusError = true := by simpa using hvalid
    rw [if_pos htrue, herror, List.getLast?_eq_some_getLast (List.cons_ne_nil e rest)]
    rfl

/-- A general protection fault leaves the error as it is. -/
theorem SlotInv.protection {slot : FFISafeMemoryFault E} {pending : List (Fault E)}
    (h : SlotInv slot pending) (memOp : MemOp) (vaddr : BitVec 64) :
    SlotInv { slot with vaddr, memOp, wasRealMemoryTrap := true }
      (pending ++ [⟨vaddr, .generalProtection, memOp⟩]) := by
  have hbus : busErrors (pending ++ [⟨vaddr, .generalProtection, memOp⟩]) = busErrors pending := by
    rw [busErrors_append]
    exact List.append_nil _
  refine ⟨by simp, fun fault hfault => ?_, by rw [hbus]; exact h.error, by rw [hbus]; exact h.valid⟩
  rw [List.getLast?_append_of_ne_nil _ (by simp), List.getLast?_singleton,
    Option.some.injEq] at hfault
  subst hfault
  exact ⟨rfl, rfl⟩

/-- Recording a fault drops the error before it, if it is a bus fault. -/
theorem SlotInv.record {slot : FFISafeMemoryFault E} {pending : List (Fault E)}
    (h : SlotInv slot pending) {call : SlotCall E} {fault : Fault E}
    (hcall : call.recorded = some fault) :
    ∃ dropped slot', call.run slot = some (⟨[], dropped⟩, slot') ∧
      SlotInv slot' (pending ++ [fault]) ∧
      (heldErrors slot ++ busErrors [fault]).Perm (dropped ++ heldErrors slot') := by
  cases call with
  | takeMemoryFault => cases hcall
  | recordInline memOp vaddr =>
    obtain rfl := Option.some.inj hcall
    exact ⟨[], _, rfl, h.protection memOp vaddr,
      List.Perm.of_eq (List.append_nil (heldErrors slot))⟩
  | setFault memOp vaddr reason =>
    obtain rfl := Option.some.inj hcall
    cases reason with
    | generalProtection =>
      exact ⟨[], _, rfl, h.protection memOp vaddr,
        List.Perm.of_eq (List.append_nil (heldErrors slot))⟩
    | memoryBus error =>
      refine ⟨heldErrors slot, ⟨true, vaddr, memOp, true, some error⟩, ?_, ?_, List.Perm.refl _⟩
      · unfold SlotCall.run FFISafeMemoryFault.setFault
        dsimp only
        rw [(h.protection memOp vaddr).dropBusError]
        rfl
      · have hbus : busErrors (pending ++ [⟨vaddr, .memoryBus error, memOp⟩]) =
            busErrors pending ++ [error] := by
          rw [busErrors_append]
          rfl
        refine ⟨by simp, fun fault hfault => ?_, by rw [hbus]; simp, by rw [hbus]; simp⟩
        rw [List.getLast?_append_of_ne_nil _ (by simp), List.getLast?_singleton,
          Option.some.injEq] at hfault
        subst hfault
        exact ⟨rfl, rfl⟩

/-- The reason that a take reports: the last bus error, if there was one. -/
def reported (pending : List (Fault E)) : FaultReason E :=
  match (busErrors pending).getLast? with
  | none => .generalProtection
  | some error => .memoryBus error

/-- A take returns the last fault, but with the last bus error as its reason. -/
theorem SlotInv.take {slot : FFISafeMemoryFault E} {pending : List (Fault E)}
    (h : SlotInv slot pending) :
    ∃ slot', SlotCall.takeMemoryFault.run slot =
        some (⟨[pending.getLast?.map fun fault => { fault with reason := reported pending }],
          []⟩, slot') ∧
      SlotInv slot' [] ∧
      (heldErrors slot).Perm (returnedErrors [pending.getLast?.map fun fault =>
        { fault with reason := reported pending }] ++ heldErrors slot') := by
  have herror := h.error
  have hvalid := h.valid
  cases hlast : pending.getLast? with
  | none =>
    obtain rfl := List.getLast?_eq_none_iff.1 hlast
    have htrap : slot.wasRealMemoryTrap = false := by simpa using h.trap
    refine ⟨slot, ?_, h, List.Perm.refl _⟩
    unfold SlotCall.run FFISafeMemoryFault.takeMemoryFault
    rw [if_pos htrap]
    rfl
  | some fault =>
    have htrap : slot.wasRealMemoryTrap = true := by
      rw [h.trap]
      rintro rfl
      cases hlast
    obtain ⟨hvaddr, hmemOp⟩ := h.last fault hlast
    obtain ⟨trap, vaddr, memOp, hasBusError, busError⟩ := slot
    subst htrap hvaddr hmemOp herror
    unfold SlotCall.run FFISafeMemoryFault.takeMemoryFault FFISafeMemoryFault.takeBusError reported
    cases hbus : (busErrors pending).getLast? with
    | none =>
      have hfalse : hasBusError = false := by
        rw [List.getLast?_eq_none_iff] at hbus
        simpa [hbus] using hvalid
      subst hfalse
      exact ⟨_, rfl, ⟨by simp, by simp, rfl, by simp [busErrors]⟩, List.Perm.refl _⟩
    | some error =>
      have htrue : hasBusError = true := by
        rw [hvalid]
        intro hnil
        rw [hnil] at hbus
        cases hbus
      subst htrue
      exact ⟨_, rfl, ⟨by simp, by simp, rfl, by simp [busErrors]⟩, List.Perm.refl _⟩

/-- This is the fault itself exactly if no bus error is older than a last protection fault. -/
theorem reported_eq_iff (pending : List (Fault E)) :
    (pending.getLast?.map fun fault => { fault with reason := reported pending }) =
      pending.getLast? ↔
      EndsInBus pending := by
  unfold EndsInBus reported
  induction pending using List.reverseRecOn with
  | nil => simp
  | append_singleton pending fault =>
    have hlast : (pending ++ [fault]).getLast? = some fault := by simp
    rw [hlast, busErrors_append]
    obtain ⟨vaddr, reason, memOp⟩ := fault
    cases reason with
    | generalProtection =>
      rw [show busErrors [(⟨vaddr, .generalProtection, memOp⟩ : Fault E)] = [] from rfl,
        List.append_nil]
      cases hbus : (busErrors pending).getLast? with
      | none => simp [List.getLast?_eq_none_iff.1 hbus]
      | some error =>
        have hne : busErrors pending ≠ [] := by
          intro hnil
          rw [hnil] at hbus
          cases hbus
        simp [hne]
    | memoryBus error =>
      rw [show busErrors [(⟨vaddr, .memoryBus error, memOp⟩ : Fault E)] = [error] from rfl]
      simp

/-- A run: its takes, and what becomes of the bus errors. -/
theorem SlotInv.run {slot : FFISafeMemoryFault E} {pending : List (Fault E)}
    (h : SlotInv slot pending) (calls : List (SlotCall E)) :
    ∃ output, runSlot slot calls = some output ∧
      (output.takes = lastFaults pending calls ↔ NoStaleBusError pending calls) ∧
      (heldErrors slot ++ storedErrors calls).Perm (output.dropped ++
        returnedErrors output.takes) := by
  induction calls generalizing slot pending with
  | nil =>
    refine ⟨⟨[], heldErrors slot⟩, ?_, iff_of_true rfl trivial, List.Perm.refl _⟩
    unfold runSlot
    rw [h.dropBusError]
    rfl
  | cons call calls ih =>
    cases hcall : call.recorded with
    | some fault =>
      obtain ⟨dropped, slot', hrun, h', hperm⟩ := h.record hcall
      obtain ⟨output, hrest, htakes, hperm'⟩ := ih h'
      refine ⟨⟨output.takes, dropped ++ output.dropped⟩, ?_, ?_, ?_⟩
      · unfold runSlot
        rw [hrun]
        dsimp only [Option.bind_eq_bind, Option.bind_some]
        rw [hrest]
        rfl
      · unfold lastFaults NoStaleBusError
        rw [hcall]
        exact htakes
      · have hstored : storedErrors (call :: calls) = busErrors [fault] ++ storedErrors calls := by
          unfold storedErrors
          rw [List.filterMap_cons, hcall, ← busErrors_append]
          rfl
        rw [hstored, ← List.append_assoc]
        calc (heldErrors slot ++ busErrors [fault]) ++ storedErrors calls
          _ |>.Perm ((dropped ++ heldErrors slot') ++ storedErrors calls) := hperm.append_right _
          _ = dropped ++ (heldErrors slot' ++ storedErrors calls) := List.append_assoc ..
          _ |>.Perm (dropped ++ (output.dropped ++ returnedErrors output.takes)) :=
            hperm'.append_left _
          _ = (dropped ++ output.dropped) ++ returnedErrors output.takes :=
            (List.append_assoc ..).symm
    | none =>
      obtain rfl : call = .takeMemoryFault := by
        cases call with
        | takeMemoryFault => rfl
        | setFault memOp vaddr reason => cases hcall
        | recordInline memOp vaddr => cases hcall
      obtain ⟨slot', hrun, h', hperm⟩ := h.take
      obtain ⟨output, hrest, htakes, hperm'⟩ := ih h'
      generalize hanswer : (pending.getLast?.map fun fault =>
        { fault with reason := reported pending }) = answer at hrun hperm
      refine ⟨⟨answer :: output.takes, output.dropped⟩, ?_, ?_, ?_⟩
      · unfold runSlot
        rw [hrun]
        dsimp only [Option.bind_eq_bind, Option.bind_some]
        rw [hrest]
        rfl
      · unfold lastFaults NoStaleBusError
        dsimp only [SlotCall.recorded]
        rw [List.cons.injEq, htakes, ← hanswer, reported_eq_iff]
      · have hreturned : returnedErrors (answer :: output.takes) =
            returnedErrors [answer] ++ returnedErrors output.takes := by
          unfold returnedErrors
          rw [← busErrors_append, ← List.filterMap_append]
          rfl
        rw [hreturned, show storedErrors (SlotCall.takeMemoryFault :: calls) =
          storedErrors calls from rfl]
        calc heldErrors slot ++ storedErrors calls
          _ |>.Perm ((returnedErrors [answer] ++ heldErrors slot') ++ storedErrors calls) :=
            hperm.append_right _
          _ = returnedErrors [answer] ++ (heldErrors slot' ++ storedErrors calls) :=
            List.append_assoc ..
          _ |>.Perm (returnedErrors [answer] ++ (output.dropped ++ returnedErrors output.takes)) :=
            hperm'.append_left _
          _ |>.Perm (output.dropped ++ (returnedErrors [answer] ++ returnedErrors output.takes)) :=
            List.perm_append_comm_assoc ..

end Invariant

/-- In every sequence of calls, reading the stored error is defined, and each stored bus error is
    dropped or returned once. Each take returns the fault recorded last since the take before it
    exactly if no take finds a general protection fault recorded after a bus error. -/
theorem takes_last_iff {E : Type} (calls : List (SlotCall E)) :
    ∃ output, runSlot FFISafeMemoryFault.new calls = some output ∧
      (output.takes = lastFaults [] calls ↔ NoStaleBusError [] calls) ∧
      (storedErrors calls).Perm (output.dropped ++ returnedErrors output.takes) :=
  slotInv_new.run calls

/-- A bus fault, then a protection fault of the emitted code. -/
def staleCalls : List (SlotCall String) :=
  [.setFault .load 0x1000 (.memoryBus "io error"), .recordInline .store 0x2000, .takeMemoryFault]

/-- The take reports the reason of the older fault. -/
theorem take_stale_bus_error :
    runSlot FFISafeMemoryFault.new staleCalls =
        some ⟨[some ⟨0x2000, .memoryBus "io error", .store⟩], []⟩ ∧
      lastFaults [] staleCalls = [some ⟨0x2000, .generalProtection, .store⟩] ∧
      ¬ ∀ (E : Type) (calls : List (SlotCall E)) output,
        runSlot FFISafeMemoryFault.new calls = some output →
          output.takes = lastFaults [] calls := by
  refine ⟨rfl, rfl, fun h => ?_⟩
  have heq := h String staleCalls _ rfl
  revert heq
  decide

end RapidArm.Exec
