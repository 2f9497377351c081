import RapidArm.Ir.Builder

/-!
# Emitters of single operations

The methods of `ExecIrBuilder` that emit arithmetic, comparisons, shifts and accesses of
the processor state (`jit-compiler-core/src/ir/mod.rs`, lines 1274–2111). The results are
values of the builder; a failed assertion is a panic.

The offsets of the fields that emitted code reads and writes are chosen by the compiler of
the host; they are a parameter (`Layout`).
-/

namespace RapidArm.Jit

open RapidArm.Ir RapidArm.Lib ExecIrBuilder

/-! ## Layout and constants -/

/-- `size_of` and `offset_of` of `TlbEntry`, the offsets of `current_mem_fault` in
    `ExecContext` and of `pstate` in `ExecState`. Different fields have different offsets. -/
structure Layout where
  tlbEntrySize : ℕ
  ioMmuIdent : ℕ
  virtualPageNumber : ℕ
  taggedPagePtr : ℕ
  mutPageFlags : ℕ
  faultVaddr : ℕ
  faultMemOp : ℕ
  faultWasRealMemoryTrap : ℕ
  pstate : ℕ
  tlbEntry_nodup : [ioMmuIdent, virtualPageNumber, taggedPagePtr, mutPageFlags].Nodup
  fault_nodup : [faultVaddr, faultMemOp, faultWasRealMemoryTrap].Nodup

/-- The fields in the order of their declaration. -/
def Layout.inOrder : Layout where
  tlbEntrySize := 32
  ioMmuIdent := 0
  virtualPageNumber := 8
  taggedPagePtr := 16
  mutPageFlags := 24
  faultVaddr := 8
  faultMemOp := 16
  faultWasRealMemoryTrap := 0
  pstate := 0
  tlbEntry_nodup := by decide
  fault_nodup := by decide

/-- `IConst::min_negative` (lines 99–102). -/
def minNegative (width : IntWidth) : IConst := ⟨width, 1 <<< (width.bits - 1)⟩

/-- `IConst::negative_one` (lines 105–114): `unbounded_shl` by 64 is zero. -/
def negativeOne (width : IntWidth) : IConst := ⟨width, (1 <<< width.bits) - 1⟩

/-- `PState::N`, `Z`, `C` and `V`. -/
def PState.N : BitVec 32 := 1 <<< 31
def PState.Z : BitVec 32 := 1 <<< 30
def PState.C : BitVec 32 := 1 <<< 29
def PState.V : BitVec 32 := 1 <<< 28

/-- `PState::NZCV_MASK`. -/
def PState.NZCV_MASK : BitVec 32 := PState.N ||| PState.Z ||| PState.C ||| PState.V

/-! ## Assertions -/

/-- `TypeFull::assert_int` of a value. -/
def assertInt (value : SSAValue) : BuilderM IntWidth := fun b => do
  match ← arenaGet b.ssaValues value with
  | .int width => return (width, b)
  | _ => throw .typeMismatch

/-- `assert_matches!(ssa_values[ptr].ty, TypeFull::HostPtr(_))`. -/
def assertHostPtr (ptr : SSAValue) : BuilderM Unit := fun b => do
  match ← arenaGet b.ssaValues ptr with
  | .hostPtr _ => return ((), b)
  | _ => throw .typeMismatch

/-- The type of a value. -/
def tyOf (value : SSAValue) : BuilderM TypeFull := fun b => do
  return (← arenaGet b.ssaValues value, b)

/-- An assertion of an emitter. -/
def check (p : Prop) [Decidable p] (panic : Panic) : BuilderM Unit := liftM (require p panic)

/-! ## Statements -/

/-- `emit_2ret_stmt` (lines 1304–1309). -/
def emit2RetStmt (rvalue : StmtKind) : BuilderM (SSAValue × SSAValue) := do
  match ← emitStmtFull 2 rvalue with
  | [value1, value2] => return (value1, value2)
  | _ => throw .stmtOutputAmount

/-- `ExecIrBuilder::iconst` (lines 1325–1327). -/
def iconst (c : IConst) : BuilderM SSAValue := emit1RetStmt (.iconst c)

/-- `ExecIrBuilder::use_stack_slot` (lines 1320–1322). -/
def useStackSlot (slot : StackSlot) : BuilderM SSAValue := emit1RetStmt (.loadStackPtr slot)

/-- `emit_same_int_ty_imm` (lines 1527–1546). -/
def emitSameIntTyImm {α : Type} (lhs : SSAValue) (rhs : IntWidth) (func : BuilderM α) :
    BuilderM α := do
  let width ← assertInt lhs
  check (width = rhs) .typeMismatch
  func

/-- `emit_same_int_ty_binop` (lines 1548–1557). -/
def emitSameIntTyBinop {α : Type} (lhs rhs : SSAValue) (func : IntWidth → BuilderM α) :
    BuilderM α := do
  let width ← assertInt rhs
  emitSameIntTyImm lhs width (func width)

/-- `ExecIrBuilder::icmp` (lines 1560–1564). -/
def icmp (cmp : IntCmp) (lhs rhs : SSAValue) : BuilderM SSAValue :=
  emitSameIntTyBinop lhs rhs fun _ => emit1RetStmt (.intCmp cmp lhs rhs)

/-- `ExecIrBuilder::icmp_imm` (lines 1570–1578). -/
def icmpImm (cmp : IntCmp) (lhs : SSAValue) (rhs : IConst) : BuilderM SSAValue :=
  emitSameIntTyImm lhs rhs.width (emit1RetStmt (.intCmpImm cmp lhs rhs.bits))

/-- `bitwise_type_guard` (lines 1580–1599). -/
def bitwiseTypeGuard {α : Type} (lhs rhs : TypeFull) (emit : BuilderM α) : BuilderM α :=
  match lhs, rhs with
  | .bool, .bool => emit
  | .int width1, .int width2 => do
    check (width1 = width2) .typeMismatch
    emit
  | _, _ => throw Panic.typeMismatch

/-- `emit_bitwise` (lines 1601–1607). -/
def emitBitwise (op : BitwiseOp) (lhs rhs : SSAValue) : BuilderM SSAValue := do
  let lhsTy ← tyOf lhs
  let rhsTy ← tyOf rhs
  bitwiseTypeGuard lhsTy rhsTy (emit1RetStmt (.bitwise op lhs rhs))

/-- `emit_bitwise_imm` (lines 1609–1618). -/
def emitBitwiseImm (op : BitwiseOp) (lhs : SSAValue) (rhs : IConst) : BuilderM SSAValue := do
  let lhsTy ← tyOf lhs
  bitwiseTypeGuard lhsTy (.int rhs.width) (emit1RetStmt (.bitwiseImm op lhs rhs.bits))

/-- `ExecIrBuilder::bitor`. -/
def bitor (lhs rhs : SSAValue) : BuilderM SSAValue := emitBitwise .or lhs rhs

/-- `ExecIrBuilder::bitand`. -/
def bitand (lhs rhs : SSAValue) : BuilderM SSAValue := emitBitwise .and lhs rhs

/-- `ExecIrBuilder::bitand_imm`. -/
def bitandImm (lhs : SSAValue) (rhs : IConst) : BuilderM SSAValue := emitBitwiseImm .and lhs rhs

/-- `ExecIrBuilder::select` (lines 1476–1494). -/
def select (cond ifTrue ifFalse : SSAValue) : BuilderM SSAValue := do
  let condTy ← tyOf cond
  check (condTy = .bool) .typeMismatch
  let trueTy ← tyOf ifTrue
  let falseTy ← tyOf ifFalse
  check (trueTy = falseTy) .typeMismatch
  emit1RetStmt (.select cond ifTrue ifFalse)

/-! ## Shifts -/

/-- `emit_shift_op` (lines 1660–1681). -/
def emitShiftOp (op : ShiftOp) (value shift : SSAValue) (unbounded : Bool) : BuilderM SSAValue := do
  let _ ← assertInt value
  let _ ← assertInt shift
  emit1RetStmt (if unbounded then .shiftUnbounded op value shift else .shift op value shift)

/-- `ExecIrBuilder::ushr`, `sshr` and `shl` (lines 1688–1711). -/
def ushr (value shift : SSAValue) : BuilderM SSAValue :=
  emitShiftOp .zeroExtendShr value shift false
def sshr (value shift : SSAValue) : BuilderM SSAValue :=
  emitShiftOp .signExtendShr value shift false
def shl (value shift : SSAValue) : BuilderM SSAValue := emitShiftOp .shl value shift false

/-- `ExecIrBuilder::ushr_unbounded`, `sshr_unbounded` and `shl_unbounded` (lines 1717–1739). -/
def ushrUnbounded (value shift : SSAValue) : BuilderM SSAValue :=
  emitShiftOp .zeroExtendShr value shift true
def sshrUnbounded (value shift : SSAValue) : BuilderM SSAValue :=
  emitShiftOp .signExtendShr value shift true
def shlUnbounded (value shift : SSAValue) : BuilderM SSAValue := emitShiftOp .shl value shift true

/-- `emit_shift_imm_op` (lines 1741–1763); `bits` is a shift amount, a constant that the
    operation folds to, or a panic. -/
def emitShiftImmOp (op : ShiftOp) (value : SSAValue)
    (bits : IntWidth → Except Panic (ℕ ⊕ IConst)) : BuilderM SSAValue := do
  let width ← assertInt value
  match ← (liftM (bits width) : BuilderM (ℕ ⊕ IConst)) with
  | .inl amount => emit1RetStmt (.shiftImm op value amount)
  | .inr constVal => iconst constVal

/-- `emit_modulo_shift_imm_op` (lines 1765–1769). -/
def emitModuloShiftImmOp (op : ShiftOp) (value : SSAValue) (bits : BitVec 8) : BuilderM SSAValue :=
  emitShiftImmOp op value fun width => .ok (.inl (bits.toNat % width.bits))

/-- `emit_panicking_shift_imm_op` (lines 1771–1786). -/
def emitPanickingShiftImmOp (op : ShiftOp) (value : SSAValue) (bits : BitVec 8) :
    BuilderM SSAValue :=
  emitShiftImmOp op value fun width => do
    require (bits.toNat < width.bits) .strictArithmetic
    return .inl bits.toNat

/-- `emit_unbounded_shift_imm_op` (lines 1788–1804). -/
def emitUnboundedShiftImmOp (op : ShiftOp) (value : SSAValue) (bits : BitVec 8) :
    BuilderM SSAValue :=
  emitShiftImmOp op value fun width =>
    if bits.toNat ≥ width.bits then
      match op with
      | .zeroExtendShr | .shl => .ok (.inr (.zero width))
      | .signExtendShr => .ok (.inl (width.bits - 1))
    else .ok (.inl bits.toNat)

/-- `ExecIrBuilder::ushr_imm`, `sshr_imm` and `shl_imm` (lines 1811–1832). -/
def ushrImm (value : SSAValue) (bits : BitVec 8) : BuilderM SSAValue :=
  emitModuloShiftImmOp .zeroExtendShr value bits
def sshrImm (value : SSAValue) (bits : BitVec 8) : BuilderM SSAValue :=
  emitModuloShiftImmOp .signExtendShr value bits
def shlImm (value : SSAValue) (bits : BitVec 8) : BuilderM SSAValue :=
  emitModuloShiftImmOp .shl value bits

/-- `ExecIrBuilder::ushr_exact_imm`, `sshr_exact_imm` and `shl_exact_imm` (lines 1838–1859). -/
def ushrExactImm (value : SSAValue) (bits : BitVec 8) : BuilderM SSAValue :=
  emitPanickingShiftImmOp .zeroExtendShr value bits
def sshrExactImm (value : SSAValue) (bits : BitVec 8) : BuilderM SSAValue :=
  emitPanickingShiftImmOp .signExtendShr value bits
def shlExactImm (value : SSAValue) (bits : BitVec 8) : BuilderM SSAValue :=
  emitPanickingShiftImmOp .shl value bits

/-- `ExecIrBuilder::ushr_unbounded_imm`, `sshr_unbounded_imm` and `shl_unbounded_imm`
    (lines 1864–1883). -/
def ushrUnboundedImm (value : SSAValue) (bits : BitVec 8) : BuilderM SSAValue :=
  emitUnboundedShiftImmOp .zeroExtendShr value bits
def sshrUnboundedImm (value : SSAValue) (bits : BitVec 8) : BuilderM SSAValue :=
  emitUnboundedShiftImmOp .signExtendShr value bits
def shlUnboundedImm (value : SSAValue) (bits : BitVec 8) : BuilderM SSAValue :=
  emitUnboundedShiftImmOp .shl value bits

/-! ## Flags and arithmetic -/

section ProcessorState

variable (L : Layout)

/-- `load_pstate` (lines 1329–1340 and 1406–1408). -/
def loadPstate : BuilderM SSAValue :=
  emit1RetStmt (.loadHost (.int .w32) Arg.execState.asSSAValue L.pstate true)

/-- `store_pstate` (lines 1410–1420 and 1464–1470). -/
def storePstate (value : SSAValue) : BuilderM Unit := do
  let width ← assertInt value
  check (width = .w32) .typeMismatch
  emitVoidStmt (.storeHost Arg.execState.asSSAValue L.pstate value true)

/-- `ExecIrBuilder::set_nzcv_flags` (lines 1888–1911). -/
def setNzcvFlags (n z c v : SSAValue) : BuilderM Unit := do
  let oldFlags ← loadPstate L
  let zeroed ← iconst (.u32 0)
  let nFlagTrue ← iconst (.u32 PState.N)
  let zFlagTrue ← iconst (.u32 PState.Z)
  let cFlagTrue ← iconst (.u32 PState.C)
  let vFlagTrue ← iconst (.u32 PState.V)
  let nFlag ← select n nFlagTrue zeroed
  let zFlag ← select z zFlagTrue zeroed
  let cFlag ← select c cFlagTrue zeroed
  let vFlag ← select v vFlagTrue zeroed
  let nzFlag ← bitor nFlag zFlag
  let cvFlag ← bitor cFlag vFlag
  let nzcvFlags ← bitor nzFlag cvFlag
  let maskedOutFlags ← bitandImm oldFlags (.u32 (~~~ PState.NZCV_MASK))
  let newFlags ← bitor maskedOutFlags nzcvFlags
  storePstate L newFlags

/-- The carry (lines 1937–1940): of a subtraction, that there is no borrow. -/
def emitCarry (op : OverflowingBinOp) (value lhs rhs : SSAValue) : BuilderM SSAValue :=
  match op with
  | .add => icmp .unsignedLessThan value lhs
  | .sub => icmp .unsignedGreaterThanOrEqual lhs rhs

/-- `emit_flag_setting_binop` (lines 1919–1946). -/
def emitFlagSettingBinop (op : OverflowingBinOp) (lhs rhs : SSAValue) : BuilderM SSAValue := do
  let (value, overflow, width) ← emitSameIntTyBinop lhs rhs fun width => do
    let (value, overflow) ← emit2RetStmt (.overflowingBinOp op lhs rhs)
    return (value, overflow, width)
  let negative ← icmpImm .signedLessThan value (.zero width)
  let zeroFlag ← icmpImm .equal value (.zero width)
  let carry ← emitCarry op value lhs rhs
  setNzcvFlags L negative zeroFlag carry overflow
  return value

/-- `ExecIrBuilder::iadds`. -/
def iadds (lhs rhs : SSAValue) : BuilderM SSAValue := emitFlagSettingBinop L .add lhs rhs

/-- `ExecIrBuilder::isubs`. -/
def isubs (lhs rhs : SSAValue) : BuilderM SSAValue := emitFlagSettingBinop L .sub lhs rhs

end ProcessorState

/-- `ExecIrBuilder::udiv` (lines 1973–1995). -/
def udiv (lhs rhs : SSAValue) : BuilderM SSAValue :=
  emitSameIntTyBinop lhs rhs fun width => do
    let zeroVal ← iconst (.zero width)
    let one ← iconst (.one width)
    let rhsIsZero ← icmpImm .equal rhs (.zero width)
    let safeRhs ← select rhsIsZero one rhs
    let quotient ← emit1RetStmt (.arithBinOp .uncheckedUDiv lhs safeRhs)
    select rhsIsZero zeroVal quotient

/-- `ExecIrBuilder::sdiv` (lines 2005–2041). -/
def sdiv (lhs rhs : SSAValue) : BuilderM SSAValue :=
  emitSameIntTyBinop lhs rhs fun width => do
    let zeroVal ← iconst (.zero width)
    let one ← iconst (.one width)
    let rhsIsZero ← icmpImm .equal rhs (.zero width)
    let lhsIsMin ← icmpImm .equal lhs (minNegative width)
    let rhsIsMinusOne ← icmpImm .equal rhs (negativeOne width)
    let isOverflow ← bitand lhsIsMin rhsIsMinusOne
    let useSafeRhs ← bitor rhsIsZero isOverflow
    let safeRhs ← select useSafeRhs one rhs
    let quotient ← emit1RetStmt (.arithBinOp .uncheckedSDiv lhs safeRhs)
    select rhsIsZero zeroVal quotient

/-! ## Control flow -/

/-- `ExecIrBuilder::assert_or_jmp_to` (lines 2069–2081). -/
def assertOrJmpTo (cond : SSAValue) (expected : Bool) (fail : Block) : BuilderM Block := do
  markBlockBold fail
  let success ← createBlock
  terminate (if expected then .brZ cond ⟨fail, []⟩ ⟨success, []⟩ else
    .brZ cond ⟨success, []⟩ ⟨fail, []⟩)
  switchTo success
  return success

/-- `ExecIrBuilder::make_halt_block` (lines 2101–2111). -/
def makeHaltBlock (reason : BitVec 32) : BuilderM Block := do
  let failBlock ← createBlock
  blockScope failBlock do
    let trapValue ← iconst (.u32 reason)
    terminate (.returnCode trapValue)
    markCurrentBlockCold
  return failBlock

end RapidArm.Jit
