import RapidArm.Clif.Code
import RapidArm.Backend.Lowering

/-!
# Translating the statements

`lower_rvalue` and `lower_terminator` of `compiler/cranelift_backend.rs` (lines 377–746, with the
helpers from line 144 on): the instructions they insert at the cursor, with the type of every new
value. `clif` is the function builder of Cranelift with these two, for `FunctionLowering`; what the
builder does is taken from Cranelift's documentation.

The host has 64 bits, so that `ptr_ty` is `I64`. A stack slot has the number of the slot it is
made for. Alias regions and signatures are made when they are first used; here each use names its
own. The builder inserts a block into the layout with its first instruction, here when it is
switched to; every block gets at least one.
-/

namespace RapidArm.Clif

open RapidArm.Ir RapidArm.Jit RapidArm.Lib RapidArm.Backend RapidArm.Mmu

/-- Why `lower_rvalue` or `lower_terminator` fails or panics. -/
inductive ClifError
  | wrongType (context : String) (expected found : IntWidth)
  | offsetTooLarge
  | elemSizeTooLarge
  | notAPointer
  | virtualMemory
  | missingStackSlot
  | unknownValue
  | noCurrentBlock
  | operandCount
  deriving DecidableEq, Repr

/-- `ir_ty_to_clif_ty` (lines 39–45). -/
def irTyToClifTy : TypeFull → IntWidth
  | .bool => .w8
  | .int width => width
  | .hostPtr _ => .w64

/-! ## Inserting instructions -/

/-- The types of all values, and what was inserted at the cursor. -/
structure InsState where
  types : List IntWidth
  insts : List ClifStmt

abbrev ClifM := StateT InsState (Except ClifError)

/-- `dfg.value_type`. -/
def valueType (value : ClifValue) : ClifM IntWidth := fun s =>
  match s.types[value]? with
  | some ty => .ok (ty, s)
  | none => .error .unknownValue

/-- Fail with an error. -/
def fail {α : Type} (e : ClifError) : ClifM α := fun _ => .error e

/-- An instruction with results of the types `tys`. -/
def emit (inst : ClifInst) (tys : List IntWidth) : ClifM (List ClifValue) := fun s =>
  let results := List.range' s.types.length tys.length
  .ok (results, { types := s.types ++ tys, insts := s.insts ++ [⟨results, inst⟩] })

/-- An instruction with one result. -/
def emit1 (inst : ClifInst) (ty : IntWidth) : ClifM ClifValue := do
  match ← emit inst [ty] with
  | [value] => return value
  | _ => fail .operandCount

/-- An operation whose result has the type of its first operand. -/
def binary (op : BinaryOp) (lhs rhs : ClifValue) : ClifM ClifValue := do
  emit1 (.binary op lhs rhs) (← valueType lhs)

def binaryImm (op : BinaryOp) (lhs : ClifValue) (imm : BitVec 64) : ClifM ClifValue := do
  emit1 (.binaryImm op lhs imm) (← valueType lhs)

def unary (op : UnaryOp) (arg : ClifValue) : ClifM ClifValue := do
  emit1 (.unary op arg) (← valueType arg)

def icmp (cc : IntCC) (lhs rhs : ClifValue) : ClifM ClifValue := emit1 (.icmp cc lhs rhs) .w8

def icmpImm (cc : IntCC) (lhs : ClifValue) (imm : BitVec 64) : ClifM ClifValue :=
  emit1 (.icmpImm cc lhs imm) .w8

def select (cond ifTrue ifFalse : ClifValue) : ClifM ClifValue := do
  emit1 (.select cond ifTrue ifFalse) (← valueType ifTrue)

/-! ## Helpers of `FunctionLowering` -/

/-- `use_stack_slot` (lines 144–149). -/
def useStackSlot (ir : ExecIrBuilder) (slot : StackSlot) : ClifM StackSlot :=
  if slot < ir.stackSlots.length then return slot else fail .missingStackSlot

/-- `iconst` (lines 179–183). -/
def iconst (c : IConst) : ClifM ClifValue := emit1 (.iconst c.width c.bits) c.width

/-- `assert_value_ty` (lines 185–198). -/
def assertValueTy (value : ClifValue) (expected : IntWidth) (context : String) : ClifM Unit := do
  let found ← valueType value
  if found = expected then return () else fail (.wrongType context expected found)

/-- `host_memory_flags` (lines 229–243). -/
def hostMemoryFlags (canMove : Bool) (aliasRegion : AliasRegion) : ClifM MemFlags :=
  if aliasRegion = .virtualMemory then fail .virtualMemory
  else return ⟨canMove, aliasRegion == .readOnly, false, aliasRegion⟩

/-- `guest_memory_flags` (lines 245–251). -/
def guestMemoryFlags : MemFlags := ⟨false, false, true, .virtualMemory⟩

/-- `i32::try_from(offset)`. -/
def offset32 (offset : ℕ) : ClifM (BitVec 32) :=
  if offset < 2 ^ 31 then return BitVec.ofNat 32 offset else fail .offsetTooLarge

/-- The region of a host pointer (lines 539–541 and 552–554). -/
def pointerRegion (ir : ExecIrBuilder) (basePtr : SSAValue) : ClifM AliasRegion :=
  match ir.ssaValues[basePtr]? with
  | some (.hostPtr region) => return region
  | _ => fail .notAPointer

/-- The type of a load (lines 265–268). -/
def loadTyToClifTy : LoadType → IntWidth
  | .int width => width
  | .hostPtr _ => .w64

/-- `lower_host_load` (lines 253–277). -/
def lowerHostLoad (ty : LoadType) (basePtr : ClifValue) (aliasRegion : AliasRegion) (offset : ℕ)
    (canMove : Bool) : ClifM ClifValue := do
  let offset ← offset32 offset
  let flags ← hostMemoryFlags canMove aliasRegion
  emit1 (.load (loadTyToClifTy ty) flags basePtr offset) (loadTyToClifTy ty)

/-- `lower_host_store` (lines 279–301). -/
def lowerHostStore (basePtr : ClifValue) (aliasRegion : AliasRegion) (offset : ℕ)
    (value : ClifValue)
    (canMove : Bool) : ClifM Unit := do
  let offset ← offset32 offset
  let flags ← hostMemoryFlags canMove aliasRegion
  let _ ← emit (.store flags value basePtr offset) []

/-- `convert_to_intcc` (lines 303–316). -/
def convertToIntcc : IntCmp → IntCC
  | .equal => .equal
  | .notEqual => .notEqual
  | .signedLessThan => .signedLessThan
  | .signedGreaterThanOrEqual => .signedGreaterThanOrEqual
  | .signedGreaterThan => .signedGreaterThan
  | .signedLessThanOrEqual => .signedLessThanOrEqual
  | .unsignedLessThan => .unsignedLessThan
  | .unsignedGreaterThanOrEqual => .unsignedGreaterThanOrEqual
  | .unsignedGreaterThan => .unsignedGreaterThan
  | .unsignedLessThanOrEqual => .unsignedLessThanOrEqual

/-- `fn_signature` (lines 318–337). -/
def fnSignature (signature : CallbackSignature) : ClifSignature where
  params := signature.args.map irTyToClifTy
  returns := (signature.ret.map irTyToClifTy).toList

/-- `ptr_add` (lines 339–367). -/
def ptrAdd (basePtr offset : ClifValue) (elemSize : ℕ) : ClifM ClifValue := do
  assertValueTy basePtr .w64 "PtrAdd base_ptr"
  let offsetTy ← valueType offset
  let offset ← (if offsetTy.bits < IntWidth.w64.bits then emit1 (.uextend .w64 offset) .w64
    else return offset : ClifM ClifValue)
  let offset ← (if elemSize = 1 then return offset
    else if elemSize < 2 ^ 63 then binaryImm .imul offset (BitVec.ofNat 64 elemSize)
    else fail .elemSizeTooLarge : ClifM ClifValue)
  binary .iadd basePtr offset

/-- `ptr_byte_add` (lines 369–375). -/
def ptrByteAdd (basePtr offset : ClifValue) : ClifM ClifValue := ptrAdd basePtr offset 1

/-! ## Statements -/

/-- The instruction of an `ArithBinOp` (lines 389–395). -/
def arithOp : ArithBinOp → BinaryOp
  | .add => .iadd
  | .sub => .isub
  | .mul => .imul
  | .uncheckedUDiv => .udiv
  | .uncheckedSDiv => .sdiv

/-- The instruction of a `BitwiseOp` (lines 437–441 and 450–454). -/
def bitwiseOp : BitwiseOp → BinaryOp
  | .and => .band
  | .or => .bor
  | .xor => .bxor

/-- The instruction of a `ShiftOp` (lines 469–473). -/
def shiftOp : ShiftOp → BinaryOp
  | .signExtendShr => .sshr
  | .zeroExtendShr => .ushr
  | .shl => .ishl

/-- `overflow_val` of `ShiftUnbounded` (lines 497–503). -/
def lowerOverflowVal (op : ShiftOp) (ty : IntWidth) (value : ClifValue) : ClifM ClifValue :=
  match op with
  | .signExtendShr => binaryImm .sshr value (BitVec.ofNat 64 (ty.bits - 1))
  | .zeroExtendShr | .shl => iconst ⟨ty, 0⟩

/-- `ShiftUnbounded` (lines 478–507). -/
def lowerShiftUnbounded (op : ShiftOp) (value shift : ClifValue) : ClifM ClifValue := do
  let ty ← valueType value
  let inRange ← icmpImm .unsignedLessThan shift (BitVec.ofNat 64 ty.bits)
  let shifted ← binary (shiftOp op) value shift
  let overflowVal ← lowerOverflowVal op ty value
  select inRange shifted overflowVal

section Lowering

variable (codeAddr : HostCallback → Address) (ir : ExecIrBuilder)

/-- `lower_rvalue` (lines 377–709). The operands are those of `rvalueUses`. -/
def lowerRvalue (rvalue : StmtKind) (operands : List ClifValue) : ClifM (List ClifValue) := do
  match rvalue, operands with
  | .iconst c, [] => return [← iconst c]
  | .arithBinOp op _ _, [lhs, rhs] => return [← binary (arithOp op) lhs rhs]
  | .intNeg _, [value] => return [← unary .ineg value]
  | .intCmp cmp _ _, [lhs, rhs] => return [← icmp (convertToIntcc cmp) lhs rhs]
  | .intCmpImm cmp _ imm, [lhs] => return [← icmpImm (convertToIntcc cmp) lhs imm]
  | .select _ _ _, [cond, ifTrue, ifFalse] => return [← select cond ifTrue ifFalse]
  | .bitwise op _ _, [lhs, rhs] => return [← binary (bitwiseOp op) lhs rhs]
  | .bitwiseImm op _ imm, [lhs] => return [← binaryImm (bitwiseOp op) lhs imm]
  | .bitNot _, [value] => return [← unary .bnot value]
  | .shift op _ _, [value, shift] => return [← binary (shiftOp op) value shift]
  | .shiftUnbounded op _ _, [value, shift] => return [← lowerShiftUnbounded op value shift]
  | .shiftImm op _ shift, [value] => return [← binaryImm (shiftOp op) value (BitVec.ofNat 64 shift)]
  | .overflowingBinOp op _ _, [lhs, rhs] => do
    let ty ← valueType lhs
    emit (.binaryOverflow op lhs rhs) [ty, .w8]
  | .loadHost ty basePtr offset canMove, [base] => do
    let aliasRegion ← pointerRegion ir basePtr
    return [← lowerHostLoad ty base aliasRegion offset canMove]
  | .storeHost basePtr offset _ canMove, [value, base] => do
    let aliasRegion ← pointerRegion ir basePtr
    lowerHostStore base aliasRegion offset value canMove
    return []
  | .loadStackPtr slot, [] => do
    let slot ← useStackSlot ir slot
    return [← emit1 (.stackAddr slot) .w64]
  | .ptrAdd _ _ elemSize, [base, offset] => return [← ptrAdd base offset elemSize]
  | .ptrEq _ _, [a, b] => do
    assertValueTy a .w64 "PtrEq ptr_a"
    assertValueTy b .w64 "PtrEq ptr_b"
    return [← icmp .equal a b]
  | .hasTag _ tagBits, [ptr] => return [← binaryImm .band ptr (tagBits.setWidth 64)]
  | .untag _ tagBits, [ptr] => return [← binaryImm .band ptr (~~~ tagBits.setWidth 64)]
  | .hostCallback func signature _, args => do
    let signature := fnSignature signature
    let fnPtrVal ← emit1 (.iconst .w64 (codeAddr func)) .w64
    emit (.callIndirect signature fnPtrVal args) signature.returns
  | .vmLoadRaw _ _ width _, [page, offset] => do
    let ptr ← ptrByteAdd page offset
    return [← emit1 (.atomicLoad width guestMemoryFlags ptr) width]
  | .vmStoreRaw _ _ _ _, [value, page, offset] => do
    let ptr ← ptrByteAdd page offset
    emit (.atomicStore guestMemoryFlags value ptr) []
  | .loadHaltReason, [ptr] => do
    let flags ← hostMemoryFlags false .haltReason
    return [← emit1 (.atomicLoad .w32 flags ptr) .w32]
  | .takeHaltReason, [ptr] => do
    let zeroVal ← iconst (IConst.zero .w32)
    let flags ← hostMemoryFlags false .haltReason
    return [← emit1 (.atomicRmw .w32 flags .xchg ptr zeroVal) .w32]
  | .setPageDirtyFlag _, [ptr] => do
    let flagVal ← iconst (IConst.u8 IS_DIRTY_FLAG)
    let flags ← hostMemoryFlags false .pageFlags
    let _ ← emit1 (.atomicRmw .w8 flags .or ptr flagVal) .w8
    return []
  | .safepoint, [] => return []
  | _, _ => fail .operandCount

/-- `int_nonzero` (lines 766–770). Every type is one of integers. -/
def intNonzero (value : ClifValue) : ClifM ClifValue := icmpImm .notEqual value 0

/-- `lower_terminator` (lines 711–746), with the condition or halt reason it uses and the jumps. -/
def lowerTerminator (terminator : Terminator) (values : List ClifValue)
    (jumps : List (ClifBlock × List ClifValue)) : ClifM ClifTerminator := do
  match terminator, values, jumps with
  | .ret, [], [] => do
    let zeroVal ← emit1 (.iconst .w32 0) .w32
    return .ret [zeroVal]
  | .returnCode _, [haltReason], [] => do
    assertValueTy haltReason .w32 "ReturnFail halt_reason"
    return .ret [haltReason]
  | .br _, [], [jump] => return .jump jump
  | .brZ _ _ _, [cond], [nonZero, zeroJump] => do
    let condIsNonzero ← intNonzero cond
    return .brif condIsNonzero nonZero zeroJump
  | _, _, _ => fail .operandCount

/-! ## The function builder -/

/-- `FunctionBuilder`: the function so far and the block that is filled. -/
structure ClifBuilder where
  func : ClifFunction
  current : Option ClifBlock

namespace ClifBuilder

/-- Change the data of a block. -/
def modifyBlock (s : ClifBuilder) (block : ClifBlock) (change : ClifBlockData → ClifBlockData) :
    ClifBuilder :=
  { s with func := { s.func with blocks := s.func.blocks.modify block change } }

/-- What an emitter inserts at the cursor. -/
def insert {α : Type} (s : ClifBuilder) (emitter : ClifM α)
    (finish : α → ClifBlockData → ClifBlockData) :
    Except ClifError (α × ClifBuilder) :=
  match s.current with
  | none => .error .noCurrentBlock
  | some block => do
    let (a, t) ← emitter ⟨s.func.types, []⟩
    let s := { s with func := { s.func with types := t.types } }
    return (a, s.modifyBlock block fun data =>
      finish a { data with insts := data.insts ++ t.insts })

end ClifBuilder

/-- Cranelift: the builder as its documentation describes it, with the instructions that
    `lower_rvalue` and `lower_terminator` insert. -/
abbrev clif : Cranelift where
  State := ClifBuilder
  Value := ClifValue
  ClifBlock := ClifBlock
  Error := ClifError
  init := ⟨⟨[], [], []⟩, none⟩
  createBlock s :=
    (s.func.blocks.length,
      { s with func := { s.func with blocks := s.func.blocks ++ [⟨[], [], none, false⟩] } })
  appendBlockParam block ty s :=
    (s.func.types.length,
      { s with func := { s.func with
        types := s.func.types ++ [irTyToClifTy ty]
        blocks := s.func.blocks.modify block fun data =>
          { data with params := data.params ++ [s.func.types.length] } } })
  setColdBlock block s := s.modifyBlock block fun data => { data with cold := true }
  blockParams block s := ((s.func.blocks[block]?).map ClifBlockData.params).getD []
  switchToBlock block s :=
    { func := { s.func with
        layout := if block ∈ s.func.layout then s.func.layout else s.func.layout ++ [block] },
      current := some block }
  ins ir rvalue operands s := s.insert (lowerRvalue codeAddr ir rvalue operands) fun _ data => data
  insTerminator terminator values jumps s :=
    (s.insert (lowerTerminator terminator values jumps) fun t data =>
      { data with terminator := some t }).map Prod.snd
  decEq := inferInstance

end Lowering

end RapidArm.Clif
