import Mathlib.Data.List.Basic
import Mathlib.Logic.Function.Basic

/-!
# The statements and terminators of `ExecIr`

The data types of `jit-compiler-core/src/ir/mod.rs` (lines 36–996): integer
widths and constants, value types, the statement kinds, jumps, terminators and
block data.

A handle of the source (`Block`, `SSAValue`, `Stmt`, `StackSlot`) is an index
into an append-only arena; here it is that index. Two encodings differ from the
source where nothing depends on the difference:

* a `Terminator` is its kind together with the jumps this kind has, so that a
  `BrZ` without its two targets cannot be built (the source keeps the targets in
  an `ArrayVec<Jump, 2>` beside the kind);
* the arena of callback signatures only ever holds its six initial constants, so
  `CallbackSignature` enumerates them, and `HostCallback` enumerates the
  functions of `ffi_support.rs` the source takes the address of.
-/

namespace RapidArm.Ir

/-- A handle to a basic block: its index in `blocks`. -/
abbrev Block := ℕ

/-- A handle to a value: its index in `ssa_values`. -/
abbrev SSAValue := ℕ

/-- A handle to a statement: its index in `stmts`. -/
abbrev Stmt := ℕ

/-- A handle to a stack allocation: its index in `stack_slots`. -/
abbrev StackSlot := ℕ

/-- `Block::ENTRYPOINT` (lines 990–995), the first block of the arena. -/
def Block.ENTRYPOINT : Block := 0

/-! ## Integers -/

/-- The width of an IR integer (lines 36–46). -/
inductive IntWidth
  | w8
  | w16
  | w32
  | w64
  deriving DecidableEq, Repr

/-- `IntWidth::bytes`. -/
def IntWidth.bytes : IntWidth → ℕ
  | w8 => 1
  | w16 => 2
  | w32 => 4
  | w64 => 8

/-- `IntWidth::bits`. -/
def IntWidth.bits (w : IntWidth) : ℕ := w.bytes * 8

/-- An integer constant, stored as its zero-extended bit pattern (lines 80–85). -/
structure IConst where
  width : IntWidth
  bits : BitVec 64
  deriving DecidableEq, Repr

/-- `IConst::zero`. -/
def IConst.zero (width : IntWidth) : IConst := ⟨width, 0⟩

/-- `IConst::one`. -/
def IConst.one (width : IntWidth) : IConst := ⟨width, 1⟩

/-- `IConst::u64`. -/
def IConst.u64 (value : BitVec 64) : IConst := ⟨.w64, value⟩

/-- `IConst::u32`. -/
def IConst.u32 (value : BitVec 32) : IConst := ⟨.w32, value.setWidth 64⟩

/-- `IConst::u8`. -/
def IConst.u8 (value : BitVec 8) : IConst := ⟨.w8, value.setWidth 64⟩

/-! ## Types -/

/-- A host-memory region of the alias analysis (lines 201–218). -/
inductive AliasRegion
  | execState
  | execContext
  | tlb
  | haltReason
  | readOnly
  | scratchSpace
  | virtualMemory
  | pageFlags
  deriving DecidableEq, Repr

/-- `TypeFull` (lines 220–229). -/
inductive TypeFull
  | int (width : IntWidth)
  | bool
  | hostPtr (region : AliasRegion)
  deriving DecidableEq, Repr

/-- `LoadType` (lines 278–286): what a host-memory load can produce. -/
inductive LoadType
  | int (width : IntWidth)
  | hostPtr (region : AliasRegion)
  deriving DecidableEq, Repr

/-- The type of the value a load produces (lines 1203–1206). -/
def LoadType.toTypeFull : LoadType → TypeFull
  | int width => .int width
  | hostPtr region => .hostPtr region

/-- `StackSlotData` (lines 312–316). -/
structure StackSlotData where
  size : ℕ
  align : ℕ
  deriving DecidableEq, Repr

/-- The fixed arguments of a compiled chunk, in ABI order (lines 336–350). -/
inductive Arg
  | ioMMU
  | tlb
  | execContext
  | execState
  | ioMMUIdentifier
  | haltReasonPtr
  deriving DecidableEq, Repr

/-- `Arg::args`. -/
def Arg.args : List Arg :=
  [ioMMU, tlb, execContext, execState, ioMMUIdentifier, haltReasonPtr]

/-- `Arg::ty`. -/
def Arg.ty : Arg → TypeFull
  | execState => .hostPtr .execState
  | execContext => .hostPtr .execContext
  | tlb => .hostPtr .tlb
  | ioMMUIdentifier => .hostPtr .readOnly
  | haltReasonPtr => .hostPtr .haltReason
  | ioMMU => .hostPtr .readOnly

/-- `Arg::as_ssa_value`: the argument values are the first six of the arena, in
    the order of the `init` list (lines 302–309). -/
def Arg.asSSAValue : Arg → SSAValue
  | execState => 0
  | execContext => 1
  | tlb => 2
  | ioMMUIdentifier => 3
  | haltReasonPtr => 4
  | ioMMU => 5

/-! ## Operations -/

/-- `ArithBinOp` (lines 432–455). -/
inductive ArithBinOp
  | add
  | sub
  | mul
  | uncheckedUDiv
  | uncheckedSDiv
  deriving DecidableEq, Repr

/-- `OverflowingBinOp` (lines 458–464). -/
inductive OverflowingBinOp
  | add
  | sub
  deriving DecidableEq, Repr

/-- `BitwiseOp` (lines 466–471). -/
inductive BitwiseOp
  | and
  | or
  | xor
  deriving DecidableEq, Repr

/-- `ShiftOp` (lines 473–478). -/
inductive ShiftOp
  | signExtendShr
  | zeroExtendShr
  | shl
  deriving DecidableEq, Repr

/-- `IntCmp` (lines 481–503). -/
inductive IntCmp
  | equal
  | notEqual
  | signedLessThan
  | signedLessThanOrEqual
  | signedGreaterThan
  | signedGreaterThanOrEqual
  | unsignedLessThan
  | unsignedLessThanOrEqual
  | unsignedGreaterThan
  | unsignedGreaterThanOrEqual
  deriving DecidableEq, Repr

/-! ## Host callbacks -/

/-- The functions of `ffi_support.rs` that the IR can call: plain and exclusive
    loads and stores of every width, and `clrex`. -/
inductive HostCallback
  | load (width : IntWidth)
  | store (width : IntWidth)
  | ldrex (width : IntWidth)
  | strex (width : IntWidth)
  | clrex
  deriving DecidableEq, Repr

/-- The constants of the signature arena (lines 534–566). -/
inductive CallbackSignature
  | load
  | store (width : IntWidth)
  | clrex
  deriving DecidableEq, Repr

/-- The argument types of a signature. -/
def CallbackSignature.args : CallbackSignature → List TypeFull
  | load => [.hostPtr .readOnly, .hostPtr .tlb, .hostPtr .execContext, .int .w64,
      .hostPtr .scratchSpace]
  | store width => [.hostPtr .readOnly, .hostPtr .tlb, .hostPtr .execContext, .int .w64,
      .int width]
  | clrex => [.hostPtr .execContext]

/-- The return type of a signature. -/
def CallbackSignature.ret : CallbackSignature → Option TypeFull
  | load => some (.int .w8)
  | store _ => some (.int .w8)
  | clrex => none

/-- `load_callback` (lines 568–594). -/
def loadCallback (width : IntWidth) (exclusive : Bool) : HostCallback × CallbackSignature :=
  (if exclusive then .ldrex width else .load width, .load)

/-- `store_callback` (lines 597–641). -/
def storeCallback (width : IntWidth) (exclusive : Bool) : HostCallback × CallbackSignature :=
  (if exclusive then .strex width else .store width, .store width)

/-! ## Statements -/

/-- `StmtKind` (lines 646–827). -/
inductive StmtKind
  | iconst (c : IConst)
  | arithBinOp (op : ArithBinOp) (lhs rhs : SSAValue)
  | intNeg (value : SSAValue)
  | overflowingBinOp (op : OverflowingBinOp) (lhs rhs : SSAValue)
  | intCmp (cmp : IntCmp) (lhs rhs : SSAValue)
  | intCmpImm (cmp : IntCmp) (lhs : SSAValue) (rhs : BitVec 64)
  | select (cond ifTrue ifFalse : SSAValue)
  | bitwise (op : BitwiseOp) (lhs rhs : SSAValue)
  | bitwiseImm (op : BitwiseOp) (lhs : SSAValue) (rhs : BitVec 64)
  | bitNot (value : SSAValue)
  | shift (op : ShiftOp) (value shift : SSAValue)
  | shiftUnbounded (op : ShiftOp) (value shift : SSAValue)
  | shiftImm (op : ShiftOp) (value : SSAValue) (shift : ℕ)
  | loadHost (ty : LoadType) (basePtr : SSAValue) (offset : ℕ) (canMove : Bool)
  | storeHost (basePtr : SSAValue) (offset : ℕ) (value : SSAValue) (canMove : Bool)
  | loadStackPtr (slot : StackSlot)
  | ptrAdd (basePtr offset : SSAValue) (elemSize : ℕ)
  | ptrEq (a b : SSAValue)
  | hasTag (ptr : SSAValue) (tagBits : BitVec 8)
  | untag (ptr : SSAValue) (tagBits : BitVec 8)
  | hostCallback (func : HostCallback) (signature : CallbackSignature) (args : List SSAValue)
  | vmLoadRaw (alignedPagePtr pageOffset : SSAValue) (width : IntWidth) (seqCst : Bool)
  | vmStoreRaw (alignedPagePtr pageOffset value : SSAValue) (seqCst : Bool)
  | loadHaltReason
  | takeHaltReason
  | setPageDirtyFlag (ptr : SSAValue)
  | safepoint
  deriving DecidableEq, Repr

/-- The values a statement reads, in the order it names them. -/
def StmtKind.operands : StmtKind → List SSAValue
  | iconst _ | loadStackPtr _ | loadHaltReason | takeHaltReason | safepoint => []
  | arithBinOp _ lhs rhs | overflowingBinOp _ lhs rhs | intCmp _ lhs rhs
  | bitwise _ lhs rhs => [lhs, rhs]
  | intNeg v | intCmpImm _ v _ | bitwiseImm _ v _ | bitNot v | shiftImm _ v _ => [v]
  | select cond ifTrue ifFalse => [cond, ifTrue, ifFalse]
  | shift _ value amount | shiftUnbounded _ value amount => [value, amount]
  | loadHost _ basePtr _ _ => [basePtr]
  | storeHost basePtr _ value _ => [basePtr, value]
  | ptrAdd basePtr offset _ => [basePtr, offset]
  | ptrEq a b => [a, b]
  | hasTag ptr _ | untag ptr _ | setPageDirtyFlag ptr => [ptr]
  | hostCallback _ _ args => args
  | vmLoadRaw alignedPagePtr pageOffset _ _ => [alignedPagePtr, pageOffset]
  | vmStoreRaw alignedPagePtr pageOffset value _ => [alignedPagePtr, pageOffset, value]

/-- `StmtData` (lines 829–833). -/
structure StmtData where
  outputs : List SSAValue
  rvalue : StmtKind
  deriving DecidableEq, Repr

/-! ## Jumps and terminators -/

/-- A branch edge (lines 842–851): a target and the values passed as its block
    parameters. -/
structure Jump where
  target : Block
  parameters : List SSAValue
  deriving DecidableEq, Repr

/-- `Terminator` (lines 871–895): the kind with the jumps it has. `brZ` takes the
    first jump if `cond` is zero, else the second. -/
inductive Terminator
  | ret
  | returnCode (haltReason : SSAValue)
  | brZ (cond : SSAValue) (zero nonZero : Jump)
  | br (jump : Jump)
  deriving DecidableEq, Repr

/-- The jumps of a terminator. -/
def Terminator.targets : Terminator → List Jump
  | ret | returnCode _ => []
  | brZ _ zero nonZero => [zero, nonZero]
  | br jump => [jump]

/-- `Terminator::block_targets` (lines 900–912): the distinct targets. -/
def Terminator.blockTargets (t : Terminator) : List Block :=
  match t.targets with
  | [one, two] => if one.target ≠ two.target then [one.target, two.target] else [one.target]
  | targets => targets.map Jump.target

/-- The values a terminator reads: its operand and every jump argument. -/
def Terminator.operands : Terminator → List SSAValue
  | ret => []
  | returnCode v => [v]
  | brZ cond zero nonZero => cond :: (zero.parameters ++ nonZero.parameters)
  | br jump => jump.parameters

theorem Terminator.mem_blockTargets {t : Terminator} {b : Block} :
    b ∈ t.blockTargets ↔ ∃ j ∈ t.targets, j.target = b := by
  cases t with
  | ret => simp [blockTargets, targets]
  | returnCode v => simp [blockTargets, targets]
  | br j => simp [blockTargets, targets, eq_comm]
  | brZ c z nz =>
    simp only [blockTargets, targets]
    split_ifs with h
    · simp [eq_comm]
    · rw [ne_eq, not_not] at h
      simp [← h, eq_comm]

theorem Terminator.blockTargets_nodup (t : Terminator) : t.blockTargets.Nodup := by
  cases t with
  | ret => simp [blockTargets, targets]
  | returnCode v => simp [blockTargets, targets]
  | br j => simp [blockTargets, targets]
  | brZ c z nz =>
    simp only [blockTargets, targets]
    split_ifs with h
    · simpa using h
    · simp

/-- `BlockData` (lines 960–967). -/
structure BlockData where
  parameters : List SSAValue
  stmts : List Stmt
  terminated : Bool
  terminator : Terminator
  isCold : Bool
  deriving DecidableEq, Repr

/-- `BlockData::empty`. -/
def BlockData.empty : BlockData :=
  { parameters := [], stmts := [], terminated := false, terminator := .ret, isCold := false }

end RapidArm.Ir
