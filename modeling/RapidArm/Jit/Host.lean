import RapidArm.Jit.Integers
import RapidArm.Jit.Emitters
import RapidArm.Mmu.Access
import RapidArm.Exec.FaultSlot

/-!
# The host of emitted code

The meaning of the statements of the IR over a host that holds the heap, the MMU, the TLB,
the processor state and the fault slot of the execution context, with the callbacks of
`ffi_support.rs`, lines 17–79. The integer statements mean what a backend makes of them. What
the statements of other emitters mean is a parameter.

A host pointer is what it points to; a pointer to a page carries its tag. The statements
here never compare or offset pointers in any other way.
-/

namespace RapidArm.Jit

open RapidArm.Ir RapidArm.Mmu RapidArm.Backend RapidArm.Exec

/-! ## State -/

/-- What a host pointer points to. -/
inductive HostPtr
  | null
  | ioMMU
  | ident (token : Token)
  | tlb
  | tlbEntry (index : ℕ)
  | execContext
  | execState
  | haltReason
  | stackSlot (slot : StackSlot)
  | page (ptr : HostPage) (tag : BitVec 8)
  | pageFlags (page : PageId)
  deriving DecidableEq, Repr

/-- What emitted code reads and changes. The bus errors of the fault slot are not told
    apart. -/
structure HostState where
  heap : Heap
  mmu : IoMMU
  tlb : Tlb
  pstate : BitVec 32
  currentMemFault : FFISafeMemoryFault Unit
  stack : StackSlot → Option (Val HostPtr)

/-- A host with no guest memory: everything is as `new` makes it. -/
def HostState.new (mmu : IoMMU) : HostState where
  heap := Heap.empty
  mmu := mmu
  tlb := Tlb.new
  pstate := 0
  currentMemFault := FFISafeMemoryFault.new
  stack := fun _ => none

/-! ## Memory of the host -/

section Host

variable (L : Layout)

/-- The fields of a TLB entry; those of a zeroed entry are zero. -/
def identPtr : Option TlbEntry → HostPtr
  | some entry => .ident entry.ioMmuIdent
  | none => .null

def pageNumberBits : Option TlbEntry → BitVec 64
  | some entry => BitVec.ofNat 64 entry.virtualPageNumber
  | none => 0

def taggedPagePtr : Option TlbEntry → HostPtr
  | some entry => .page entry.page.ptr (entry.page.flags.setWidth 8)
  | none => .null

def mutPageFlagsPtr : Option TlbEntry → HostPtr
  | some entry => .pageFlags entry.page.mutableFlags
  | none => .null

/-- Reading a field of a TLB entry. -/
def loadTlbEntry (entry : Option TlbEntry) (ty : LoadType) (offset : ℕ) : Option (Val HostPtr) :=
  if offset = L.ioMmuIdent ∧ ty = .hostPtr .readOnly then some (.ptr (identPtr entry))
  else if offset = L.virtualPageNumber ∧ ty = .int .w64 then some (.int .w64 (pageNumberBits entry))
  else if offset = L.taggedPagePtr ∧ ty = .hostPtr .virtualMemory then
    some (.ptr (taggedPagePtr entry))
  else if offset = L.mutPageFlags ∧ ty = .hostPtr .pageFlags then
    some (.ptr (mutPageFlagsPtr entry))
  else none

/-- `LoadHost`: from a TLB entry, from the processor state, or from a stack slot the type that
    was written to it. -/
def loadHost (s : HostState) (ty : LoadType) (base : HostPtr) (offset : ℕ) : Option (Val HostPtr) :=
  match base with
  | .tlbEntry index => if index < TLB_SIZE then loadTlbEntry L (s.tlb index) ty offset else none
  | .execState => if offset = L.pstate ∧ ty = .int .w32 then some (.int .w32 s.pstate) else none
  | .stackSlot slot =>
    match s.stack slot, ty with
    | some (.int width value), .int width' =>
      if offset = 0 ∧ width = width' then some (.int width value) else none
    | _, _ => none
  | _ => none

/-- The `MemOp` of a byte. -/
def memOpOf (byte : BitVec 8) : Option MemOp :=
  if byte = 0 then some .load else if byte = 1 then some .store else if byte = 2 then
    some .rwm else none

/-- `StoreHost` to the processor state or to the fault slot. Other bytes than 0 and 1 are no
    `bool`. -/
def storeHost (s : HostState) (base : HostPtr) (offset : ℕ) (value : Val HostPtr) :
    Option HostState :=
  let slot := s.currentMemFault
  match base, value with
  | .execState, .int .w32 pstate => if offset = L.pstate then some { s with pstate } else none
  | .execContext, .int .w64 vaddr =>
    if offset = L.faultVaddr then some { s with currentMemFault := { slot with vaddr } } else none
  | .execContext, .int .w8 byte =>
    if offset = L.faultMemOp then
      (memOpOf byte).map fun memOp => { s with currentMemFault := { slot with memOp } }
    else if offset = L.faultWasRealMemoryTrap ∧ BitVec.ult byte 2 then
      some { s with currentMemFault := { slot with wasRealMemoryTrap := byte == 1#8 } }
    else none
  | _, _ => none

/-- The bytes of a value stored to a page of the host. -/
def storePage (h : Heap) (ptr : HostPage) (offset : ℕ) (bytes : List (BitVec 8)) : Heap :=
  h.apply (writeBytes ⟨ptr, 0, 0⟩ offset bytes)

/-! ## Callbacks -/

/-- `IoMmuStatus` as its `u8`. -/
def IoMmuStatus.toVal (ok : Bool) : Val HostPtr := .int .w8 (if ok then 0 else 1)

/-- The fault that a callback records. -/
def recordFault (s : HostState) (memOp : MemOp) (error : MemoryFault) : Option HostState :=
  let reason := match error.reason with
    | .generalProtection => FaultReason.generalProtection
    | .memoryBus => FaultReason.memoryBus ()
  (s.currentMemFault.setFault memOp error.vaddr reason).map fun r =>
    { s with currentMemFault := r.2 }

/-- The callbacks `load_byte`, `load16_le`, `load32_le` and `load64_le`. -/
def loadFallback (width : IntWidth) (addr : BitVec 64) (out : StackSlot) (s : HostState) :
    Option (Bool × HostState) :=
  match scalarLoad s.heap s.mmu width addr (some s.tlb) with
  | (.ok value, some tlb) =>
    some (true, { s with tlb, stack := Function.update s.stack out (some (.int width value)) })
  | (.error (.fault error), some tlb) =>
    (recordFault { s with tlb } .load error).map fun s' => (false, s')
  | _ => none

/-- The callbacks `store_byte`, `store16_le`, `store32_le` and `store64_le`. -/
def storeFallback {width : IntWidth} (addr : BitVec 64) (value : BitVec width.bits)
    (s : HostState) :
    Option (Bool × HostState) :=
  match scalarStore s.heap s.mmu addr value (some s.tlb) with
  | (.ok effects, some tlb) => some (true, { s with tlb, heap := s.heap.apply effects })
  | (.error (.fault error), some tlb) =>
    (recordFault { s with tlb } .store error).map fun s' => (false, s')
  | _ => none

/-- The call of a plain load or store. -/
def callback (func : HostCallback) (args : List (Val HostPtr)) (s : HostState) :
    Option (Bool × HostState) :=
  match func, args with
  | .load width, [.ptr .ioMMU, .ptr .tlb, .ptr .execContext, .int .w64 addr,
    .ptr (.stackSlot out)] =>
    loadFallback width addr out s
  | .store width, [.ptr .ioMMU, .ptr .tlb, .ptr .execContext, .int .w64 addr, .int width' value] =>
    if width = width' then storeFallback addr value s else none
  | _, _ => none

/-! ## The machine -/

/-- The statements that access the host; `none` for a statement of other emitters. -/
def evalHost (rvalue : StmtKind) (args : List (Val HostPtr)) (s : HostState) :
    Option (Option (List (Val HostPtr) × HostState)) :=
  match rvalue, args with
  | .ptrAdd _ _ elemSize, [.ptr .tlb, .int .w64 index] =>
    some (if elemSize = L.tlbEntrySize then some ([.ptr (.tlbEntry index.toNat)], s) else none)
  | .ptrEq _ _, [.ptr a, .ptr b] => some (some ([.bool (decide (a = b))], s))
  | .hasTag _ tagBits, [.ptr (.page _ tag)] => some (some ([.bool (tag &&& tagBits != 0)], s))
  | .untag _ tagBits, [.ptr (.page ptr tag)] =>
    some (some ([.ptr (.page ptr (tag &&& ~~~ tagBits))], s))
  | .loadStackPtr slot, [] => some (some ([.ptr (.stackSlot slot)], s))
  | .loadHost ty _ offset _, [.ptr base] =>
    some ((loadHost L s ty base offset).map fun value => ([value], s))
  | .storeHost _ offset _ _, [.ptr base, value] =>
    some ((storeHost L s base offset value).map fun s' => ([], s'))
  | .vmLoadRaw _ _ width _, [.ptr (.page ptr tag), .int .w64 offset] =>
    some (if tag = 0 ∧ offset.toNat + width.bytes ≤ PAGE_SIZE then
      some ([.int width (loadLeAt width (s.heap.mem ptr) offset.toNat)], s) else none)
  | .vmStoreRaw _ _ _ _, [.ptr (.page ptr tag), .int .w64 offset, .int width value] =>
    some (if tag = 0 ∧ offset.toNat + width.bytes ≤ PAGE_SIZE then
      some ([], { s with heap := storePage s.heap ptr offset.toNat (toLeBytes value) }) else none)
  | .setPageDirtyFlag _, [.ptr (.pageFlags page)] =>
    some (some ([], { s with heap := s.heap.applyOne (.markDirty page) }))
  | .hostCallback (.load width) _ _, args =>
    some ((callback (.load width) args s).map fun r => ([IoMmuStatus.toVal r.1], r.2))
  | .hostCallback (.store width) _ _, args =>
    some ((callback (.store width) args s).map fun r => ([IoMmuStatus.toVal r.1], r.2))
  | _, _ => none

/-- The machine of a backend, with any meaning `other` of the other statements. -/
def hostMachine (backend : JitBackend)
    (other : StmtKind → List (Val HostPtr) → HostState → Option (List (Val HostPtr) × HostState)) :
    Machine where
  Val := Val HostPtr
  World := HostState
  eval rvalue args s :=
    if isInteger rvalue then (evalInteger backend rvalue args).map fun vals => (vals, s)
    else (evalHost L rvalue args s).getD (other rvalue args s)
  isZero
    | .int _ value => value == 0
    | .bool value => !value
    | .ptr p => p == .null
  haltReason r := .int .w32 r

end Host

end RapidArm.Jit
