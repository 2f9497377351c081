import RapidArm.Jit.Emitters
import RapidArm.Mmu.Memory
import RapidArm.Exec.FaultSlot

/-!
# The code of a guest memory access

What `ExecIrBuilder::vm_access` (`jit-compiler-core/src/ir/mod.rs`, lines 2201–2539)
emits for a load or a store: a probe of the TLB, checks of the alignment and of the
permissions, the raw access, and a call of the host function where the probe or the
alignment fails.
-/

namespace RapidArm.Jit

open RapidArm.Ir RapidArm.Lib RapidArm.Mmu RapidArm.Exec ExecIrBuilder

/-! ## Constants -/

/-- `PAGE_SHIFT`. -/
def PAGE_SHIFT : BitVec 8 := 12

/-- `PAGE_OFFSET_MASK_U64`. -/
def PAGE_OFFSET_MASK : BitVec 64 := 4095

/-- `TLB_MASK`. -/
def TLB_MASK : BitVec 64 := 1023

/-- `MemFlags::ALL`. -/
def ALL_FLAGS : MemFlags := 0b11111

/-- `MemOp as u8`. -/
def memOpToU8 : MemOp → BitVec 8
  | .load => 0
  | .store => 1
  | .rwm => 2

/-- `HaltReason::memory_trap` as a `u32`: the opcode 4 and the size of the access. -/
def memoryTrap (accessSizeInBytes : ℕ) : BitVec 32 := 4 + BitVec.ofNat 32 accessSizeInBytes <<< 16

/-! ## Emitters -/

/-- `ExecIrBuilder::has_tag` (lines 2229–2232). -/
def hasTag (ptr : SSAValue) (tagBits : BitVec 8) : BuilderM SSAValue := do
  assertHostPtr ptr
  emit1RetStmt (.hasTag ptr tagBits)

/-- `ExecIrBuilder::untag_ptr` (lines 2234–2237). -/
def untagPtr (ptr : SSAValue) (tagBits : BitVec 8) : BuilderM SSAValue := do
  assertHostPtr ptr
  emit1RetStmt (.untag ptr tagBits)

/-- The argument check of `call_host` (lines 1502–1510). -/
def checkArgs (signature : CallbackSignature) (args : List SSAValue) : BuilderM Unit := fun b => do
  let types ← args.mapM fun arg => arenaGet b.ssaValues arg
  require (types = signature.args) .typeMismatch
  return ((), b)

/-- `ExecIrBuilder::call_host` (lines 1496–1525), of a function that returns a value. -/
def callHost (func : HostCallback) (signature : CallbackSignature) (args : List SSAValue) :
    BuilderM SSAValue := do
  checkArgs signature args
  emit1RetStmt (.hostCallback func signature args)

/-- `ExecIrBuilder::get_scratch_space_ptr` (lines 2239–2251): one slot of eight bytes for
    all accesses. -/
def getScratchSpacePtr : BuilderM SSAValue := do
  match (← get).scratchSpace with
  | some slot => useStackSlot slot
  | none => do
    let slot ← createStackSlot 8 8
    modify fun b => { b with scratchSpace := some slot }
    useStackSlot slot

/-! ## The host function -/

/-- `VmAccessKind` (lines 2200–2204). -/
inductive VmAccessKind
  | load (width : IntWidth)
  | store (value : SSAValue)
  deriving DecidableEq, Repr

/-- `VmAccessKind::width`. -/
def VmAccessKind.width : VmAccessKind → BuilderM IntWidth
  | load width => pure width
  | store value => assertInt value

/-- `VmAccessKind::required_perms`. -/
def VmAccessKind.requiredPerms : VmAccessKind → MemProt
  | load _ => MemProt.READ
  | store _ => MemProt.WRITE

/-- The `MemOp` of an access (lines 2424–2427). -/
def VmAccessKind.memOp : VmAccessKind → MemOp
  | load _ => .load
  | store _ => .store

/-- `FallbackAccess` (lines 2222–2226). -/
structure FallbackAccess where
  block : Block
  okBlock : Block
  value : Option SSAValue

/-- The call of the host function and the test of its status (lines 2262–2291). -/
def emitHostCall (func : HostCallback × CallbackSignature) (width : IntWidth)
    (vaddr arg : SSAValue) :
    BuilderM Unit := do
  let status ← callHost func.1 func.2
    [Arg.ioMMU.asSSAValue, Arg.tlb.asSSAValue, Arg.execContext.asSSAValue, vaddr, arg]
  let fail ← makeHaltBlock (memoryTrap width.bytes)
  let _ ← assertOrJmpTo status false fail

/-- The body of the fallback block (lines 2260–2308). -/
def fallbackBody (access : VmAccessKind) (width : IntWidth) (vaddr : SSAValue) :
    BuilderM (Option SSAValue) := do
  markCurrentBlockCold
  match access with
  | .load _ => do
    let stackPtr ← getScratchSpacePtr
    emitHostCall (loadCallback width false) width vaddr stackPtr
    let value ← emit1RetStmt (.loadHost (.int width) stackPtr 0 false)
    return some value
  | .store value => do
    emitHostCall (storeCallback width false) width vaddr value
    return none

/-- `emit_host_mem_fallback` (lines 2253–2310). -/
def emitHostMemFallback (access : VmAccessKind) (width : IntWidth) (vaddr : SSAValue) :
    BuilderM FallbackAccess := do
  let fallbackBlock ← createBlock
  blockScope fallbackBlock do
    let value ← fallbackBody access width vaddr
    return { block := fallbackBlock, okBlock := (← get).currentBlock, value }

/-! ## The inline access -/

section Inline

variable (L : Layout)

/-- The page number of the address and the pointer to the entry it belongs to
    (lines 2328–2337). -/
def emitTlbEntryPtr (vaddr : SSAValue) : BuilderM (SSAValue × SSAValue) := do
  let pageNumber ← sshrExactImm vaddr PAGE_SHIFT
  let tlbIndex ← bitandImm pageNumber (.u64 TLB_MASK)
  let tlbEntryPtr ← emit1RetStmt (.ptrAdd Arg.tlb.asSSAValue tlbIndex L.tlbEntrySize)
  return (pageNumber, tlbEntryPtr)

/-- Whether the entry is of this MMU (lines 2339–2352). -/
def emitIoMmuMatches (tlbEntryPtr : SSAValue) : BuilderM SSAValue := do
  let ioMmuIdent ← emit1RetStmt (.loadHost (.hostPtr .readOnly) tlbEntryPtr L.ioMmuIdent true)
  emit1RetStmt (.ptrEq ioMmuIdent Arg.ioMMUIdentifier.asSSAValue)

/-- Whether it holds this page number (lines 2356–2367). -/
def emitPageNumberMatches (pageNumber tlbEntryPtr : SSAValue) : BuilderM SSAValue := do
  let pageNumberFound ← emit1RetStmt (.loadHost (.int .w64) tlbEntryPtr L.virtualPageNumber true)
  icmp .equal pageNumber pageNumberFound

/-- The probe of the TLB (lines 2328–2384): the pointer to the entry, the tagged pointer to the
    page it holds and the offset in the page, with a jump to `fallback` if the entry is not of
    this MMU or not of this page. -/
def emitTlbLookup (vaddr : SSAValue) (fallback : Block) :
    BuilderM (SSAValue × SSAValue × SSAValue) := do
  let (pageNumber, tlbEntryPtr) ← emitTlbEntryPtr L vaddr
  let ioMmuMatches ← emitIoMmuMatches L tlbEntryPtr
  let _ ← assertOrJmpTo ioMmuMatches true fallback
  let pageNumberMatches ← emitPageNumberMatches L pageNumber tlbEntryPtr
  let _ ← assertOrJmpTo pageNumberMatches true fallback
  let taggedPagePtr ← emit1RetStmt
      (.loadHost (.hostPtr .virtualMemory) tlbEntryPtr L.taggedPagePtr true)
  let pageOffset ← bitandImm vaddr (.u64 PAGE_OFFSET_MASK)
  return (tlbEntryPtr, taggedPagePtr, pageOffset)

/-- The alignment check (lines 2388–2404). A byte is always aligned. -/
def emitAlignmentCheck (width : IntWidth) (vaddr : SSAValue) (fallback : Block) : BuilderM Unit :=
  if width = .w8 then pure ()
  else do
    let alignMask := BitVec.ofNat 64 (width.bytes - 1)
    let alignmentBits ← bitandImm vaddr (.u64 alignMask)
    let isAligned ← icmpImm .equal alignmentBits (.u64 0)
    let _ ← assertOrJmpTo isAligned true fallback

/-- `store_ctx` (lines 2414–2422). -/
def storeCtx (offset : ℕ) (value : SSAValue) : BuilderM Unit :=
  emitVoidStmt (.storeHost Arg.execContext.asSSAValue offset value true)

/-- The block that records the fault and returns (lines 2409–2453). -/
def emitReturnTrapBlock (access : VmAccessKind) (width : IntWidth) (vaddr : SSAValue) :
    BuilderM Block := do
  let failBlock ← createBlock
  blockScope failBlock do
    storeCtx L.faultVaddr vaddr
    let memOpVal ← iconst (.u8 (memOpToU8 access.memOp))
    storeCtx L.faultMemOp memOpVal
    let trueVal ← iconst (.u8 1)
    storeCtx L.faultWasRealMemoryTrap trueVal
    let trapValue ← iconst (.u32 (memoryTrap width.bytes))
    terminate (.returnCode trapValue)
    markCurrentBlockCold
  return failBlock

/-- The end of a store (lines 2483–2514): the page is marked dirty if it must be, and the
    fallback joins. -/
def emitDirtyCheck (taggedPagePtr tlbEntryPtr : SSAValue) (okBlock : Block) : BuilderM Unit := do
  let pageMustDirty ← hasTag taggedPagePtr (MemFlags.MUST_DIRTY.setWidth 8)
  let checkIfNotAlreadyDirty ← createBlock
  let continuation ← assertOrJmpTo pageMustDirty false checkIfNotAlreadyDirty
  blockScope checkIfNotAlreadyDirty do
    let insnDirtyPtr ← emit1RetStmt
        (.loadHost (.hostPtr .pageFlags) tlbEntryPtr L.mutPageFlags true)
    emitVoidStmt (.setPageDirtyFlag insnDirtyPtr)
    terminate (.br ⟨continuation, []⟩)
  terminateBlock okBlock (.br ⟨continuation, []⟩)

/-- The end of a load (lines 2517–2537): a block whose parameter is the loaded value. -/
def emitMerge (width : IntWidth) (retNormal retFallback : SSAValue) (okBlock : Block) :
    BuilderM SSAValue := do
  let normalAccessBlock := (← get).currentBlock
  let mergeBlock ← createBlock
  switchTo mergeBlock
  let param ← addBlockParameterAt mergeBlock (.int width)
  terminateBlock normalAccessBlock (.br ⟨mergeBlock, [retNormal]⟩)
  terminateBlock okBlock (.br ⟨mergeBlock, [retFallback]⟩)
  return param

/-- `assert_matches!(ssa_values[vaddr].ty, TypeFull::I64)`. -/
def assertI64 (vaddr : SSAValue) : BuilderM Unit := do
  let width ← assertInt vaddr
  check (width = .w64) .typeMismatch

/-- `ExecIrBuilder::vm_access` (lines 2316–2539). -/
def vmAccess (vaddr : SSAValue) (access : VmAccessKind) (acqRel : Bool) :
    BuilderM (Option SSAValue) := do
  assertI64 vaddr
  let width ← access.width
  let fallbackAccess ← emitHostMemFallback access width vaddr
  let (tlbEntryPtr, taggedPagePtr, pageOffset) ← emitTlbLookup L vaddr fallbackAccess.block
  emitAlignmentCheck width vaddr fallbackAccess.block
  let opAllowed ← hasTag taggedPagePtr (access.requiredPerms.setWidth 8)
  let returnTrapBlock ← emitReturnTrapBlock L access width vaddr
  let _ ← assertOrJmpTo opAllowed true returnTrapBlock
  let alignedPagePtr ← untagPtr taggedPagePtr (ALL_FLAGS.setWidth 8)
  match access, fallbackAccess.value with
  | .load _, some retFallback => do
    let retNormal ← emit1RetStmt (.vmLoadRaw alignedPagePtr pageOffset width acqRel)
    let param ← emitMerge width retNormal retFallback fallbackAccess.okBlock
    return some param
  | .store value, none => do
    emitVoidStmt (.vmStoreRaw alignedPagePtr pageOffset value acqRel)
    emitDirtyCheck L taggedPagePtr tlbEntryPtr fallbackAccess.okBlock
    return none
  -- `unwrap` of a load without a value, `assert!` of a store with one
  | _, _ => throw Panic.debugAssertion

end Inline

end RapidArm.Jit
