import Mathlib.Algebra.Group.Nat.Defs
import RapidArm.Ir.Types
import RapidArm.Lib.Lists
import RapidArm.Lib.Except

/-!
# `ExecIrBuilder`

The builder of `jit-compiler-core/src/ir/mod.rs`: its state (lines 1020–1031),
the operations on blocks and terminators (lines 1055–1175), `type_of` and the
emission of statements (lines 1177–1309), and the emitters the passes and
`vm_access` use.

Emitters run in `BuilderM`, a state monad over `Except Panic`: every `assert`,
`expect` and out-of-range index of the source is a `throw`.

Results:
* `Built`: the builders that calls of the public interface can produce. Every
  public emitter is a composition of the calls of `Call`.
* `Built.wf`: every such builder is well formed (`WF`): each statement stands at
  one place, every handle is in range, nothing branches to the entry block, the
  parameters of a block are distinct, and the statements only the halt-check pass
  emits do not occur.
-/

namespace RapidArm.Ir

open RapidArm.Lib

/-- What a panic of the builder or of the halt-check pass reports. -/
inductive Panic
  | invalidHandle
  | branchToEntrypoint
  | alreadyTerminated
  | typeMismatch
  | stmtOutputAmount
  | notAfterSafepoint
  | keyNotFound
  | keyNotUnique
  | edgeMustExist
  | edgeReplaced
  | duplicateSafepoint
  | stalePosition
  | twoCompensatingChecks
  | noInsertionPoint
  | strictArithmetic
  | debugAssertion
  | notPowerOfTwo
  | cycleWithoutSafepoint
  | topoOrderIncomplete
  | emptyStack
  | outOfFuel
  deriving DecidableEq, Repr

/-- `NonZero<u32>`. -/
structure NonZeroU32 where
  val : ℕ
  pos : 0 < val
  lt : val < 2 ^ 32
  deriving DecidableEq, Repr

/-- `ExecIrBuilder` (lines 1020–1031). An arena is the list of what was stored. -/
structure ExecIrBuilder where
  ssaValues : List TypeFull
  blocks : List BlockData
  stmts : List StmtData
  stackSlots : List StackSlotData
  scratchSpace : Option StackSlot
  leaveAndTakeHalt : Option Block
  currentBlock : Block
  haltCheckEvery : NonZeroU32
  deriving DecidableEq, Repr

/-- `ExecIrBuilder::with_config` (lines 1056–1070), with the initial constants of
    the arenas. -/
def ExecIrBuilder.withConfig (haltCheckEvery : NonZeroU32) : ExecIrBuilder where
  ssaValues := [Arg.execState.ty, Arg.execContext.ty, Arg.tlb.ty, Arg.ioMMUIdentifier.ty,
    Arg.haltReasonPtr.ty, Arg.ioMMU.ty]
  blocks := [{ BlockData.empty with parameters := Arg.args.map Arg.asSSAValue }]
  stmts := []
  stackSlots := []
  scratchSpace := none
  leaveAndTakeHalt := none
  currentBlock := Block.ENTRYPOINT
  haltCheckEvery := haltCheckEvery

/-- Emitters: state passing over panics. -/
abbrev BuilderM := StateT ExecIrBuilder (Except Panic)

/-- Indexing an arena (`arena.rs`, lines 219–226) panics on an invalid handle. -/
def arenaGet {α : Type} (arena : List α) (handle : ℕ) : Except Panic α :=
  match arena[handle]? with
  | some data => .ok data
  | none => .error .invalidHandle

namespace ExecIrBuilder

variable (b : ExecIrBuilder)

/-! ## Reading the graph -/

/-- The data of a block, or the empty block for an invalid handle. -/
def blockD (block : Block) : BlockData := b.blocks.getD block BlockData.empty

/-- `ExecIrBuilder::successors` (lines 1088–1093). -/
def successors (block : Block) : Except Panic (List Block) := do
  let data ← arenaGet b.blocks block
  return data.terminator.blockTargets

/-- The successors of a block, none for an invalid handle. -/
def succs (block : Block) : List Block := (b.blockD block).terminator.blockTargets

/-- Whether the statement `stmt` is a `Safepoint`. -/
def isSafepoint (stmt : Stmt) : Bool :=
  match b.stmts[stmt]? with
  | some data => data.rvalue == .safepoint
  | none => false

/-! ## Blocks and terminators -/

/-- `ExecIrBuilder::create_block` (lines 1078–1080). -/
def createBlock : BuilderM Block := fun b =>
  .ok (b.blocks.length, { b with blocks := b.blocks ++ [BlockData.empty] })

/-- `ExecIrBuilder::switch_to` (lines 1083–1085). -/
def switchTo (block : Block) : BuilderM Unit := fun b => .ok ((), { b with currentBlock := block })

/-- `ExecIrBuilder::mark_block_bold` (lines 1100–1109). -/
def markBlockBold (block : Block) : BuilderM Unit := fun b =>
  if block = Block.ENTRYPOINT then .ok ((), b)
  else do
    let data ← arenaGet b.blocks block
    return ((), { b with blocks := b.blocks.set block { data with isCold := true } })

/-- `ExecIrBuilder::mark_current_block_cold`. -/
def markCurrentBlockCold : BuilderM Unit := fun b => markBlockBold b.currentBlock b

/-- The operand check of `terminate_block` (lines 1124–1141) and its
    simplification: a `BrZ` with equal jumps becomes a `Br`. -/
def checkTerminator (t : Terminator) : Except Panic Terminator :=
  match t with
  | .ret | .br _ => .ok t
  | .returnCode v => do
    match ← arenaGet b.ssaValues v with
    | .int _ => return t
    | _ => throw .typeMismatch
  | .brZ cond zero nonZero => do
    match ← arenaGet b.ssaValues cond with
    | .bool | .int _ => return if zero = nonZero then .br zero else t
    | .hostPtr _ => throw .typeMismatch

/-- `ExecIrBuilder::terminate_block` (lines 1123–1151). -/
def terminateBlock (block : Block) (t : Terminator) : BuilderM Unit := fun b => do
  let t ← b.checkTerminator t
  require (Block.ENTRYPOINT ∉ t.blockTargets) .branchToEntrypoint
  let data ← arenaGet b.blocks block
  require (data.terminated = false) .alreadyTerminated
  return ((),
    { b with blocks := b.blocks.set block { data with terminator := t, terminated := true } })

/-- `ExecIrBuilder::terminate`. -/
def terminate (t : Terminator) : BuilderM Unit := fun b => terminateBlock b.currentBlock t b

/-- `ExecIrBuilder::add_block_parameter_at` (lines 1163–1168). -/
def addBlockParameterAt (block : Block) (ty : TypeFull) : BuilderM SSAValue := fun b => do
  let data ← arenaGet b.blocks block
  let v := b.ssaValues.length
  return (v, { b with
    ssaValues := b.ssaValues ++ [ty]
    blocks := b.blocks.set block { data with parameters := data.parameters ++ [v] } })

/-- `ExecIrBuilder::block_scope` (lines 1245–1270). The scope guard restores the
    current block; on a panic the builder is lost here, as it is in `build`. -/
def blockScope {α : Type} (block : Block) (emitter : BuilderM α) : BuilderM α := fun b => do
  let (a, b') ← emitter { b with currentBlock := block }
  return (a, { b' with currentBlock := b.currentBlock })

/-! ## Statements -/

/-- `ExecIrBuilder::type_of` (lines 1177–1243). -/
def typeOf (rvalue : StmtKind) : Except Panic (List TypeFull) :=
  match rvalue with
  | .iconst c => .ok [.int c.width]
  | .arithBinOp _ v _ | .bitwise _ v _ | .bitwiseImm _ v _ | .bitNot v | .intNeg v
  | .shift _ v _ | .shiftUnbounded _ v _ | .shiftImm _ v _ | .select _ v _ => do
    return [← arenaGet b.ssaValues v]
  | .overflowingBinOp _ v _ => do return [← arenaGet b.ssaValues v, .bool]
  | .intCmp .. | .intCmpImm .. | .ptrEq .. | .hasTag .. => .ok [.bool]
  | .loadHost ty _ _ _ => .ok [ty.toTypeFull]
  | .storeHost .. | .vmStoreRaw .. | .setPageDirtyFlag _ | .safepoint => .ok []
  | .loadStackPtr _ => .ok [.hostPtr .scratchSpace]
  | .ptrAdd v _ _ | .untag v _ => do
    match ← arenaGet b.ssaValues v with
    | .hostPtr r => return [.hostPtr r]
    | _ => throw .typeMismatch
  | .hostCallback _ signature _ => .ok signature.ret.toList
  | .vmLoadRaw _ _ width _ => .ok [.int width]
  | .loadHaltReason | .takeHaltReason => .ok [.int .w32]

/-- The builder after the statement `rvalue` with outputs of the types `tys` was
    stored and pushed to the block `block` with data `data`. -/
def pushStmt (block : Block) (data : BlockData) (tys : List TypeFull) (rvalue : StmtKind) :
    ExecIrBuilder :=
  { b with
    ssaValues := b.ssaValues ++ tys
    stmts := b.stmts ++ [{ outputs := List.range' b.ssaValues.length tys.length, rvalue := rvalue }]
    blocks := b.blocks.set block { data with stmts := data.stmts ++ [b.stmts.length] } }

/-- `ExecIrBuilder::emit_stmt_full::<N>` (lines 1277–1290): the new outputs. -/
def emitStmtFull (n : ℕ) (rvalue : StmtKind) : BuilderM (List SSAValue) := fun b => do
  let tys ← b.typeOf rvalue
  require (tys.length = n) .stmtOutputAmount
  let data ← arenaGet b.blocks b.currentBlock
  return (List.range' b.ssaValues.length tys.length, b.pushStmt b.currentBlock data tys rvalue)

/-- `ExecIrBuilder::emit_void_stmt`. -/
def emitVoidStmt (rvalue : StmtKind) : BuilderM Unit := do
  let _ ← emitStmtFull 0 rvalue

/-- `ExecIrBuilder::emit_1ret_stmt`. -/
def emit1RetStmt (rvalue : StmtKind) : BuilderM SSAValue := do
  match ← emitStmtFull 1 rvalue with
  | [value] => return value
  | _ => throw .stmtOutputAmount

/-- `ExecIrBuilder::add_safepoint` (lines 2187–2189). -/
def addSafepoint : BuilderM Unit := emitVoidStmt .safepoint

/-- `ExecIrBuilder::create_stack_slot` (lines 1313–1317). -/
def createStackSlot (size align : ℕ) : BuilderM StackSlot := fun b => do
  require align.isPowerOfTwo .notPowerOfTwo
  return (b.stackSlots.length, { b with stackSlots := b.stackSlots ++ [⟨size, align⟩] })

end ExecIrBuilder

/-! ## Builders of the public interface -/

open ExecIrBuilder

/-- One call that changes a builder, with handles of this builder as arguments.
    The two halt-reason statements are emitted by the halt-check pass only. -/
inductive Call (b b' : ExecIrBuilder) : Prop
  | createBlock {block : Block} (run : createBlock b = .ok (block, b'))
  | switchTo (block : Block) (valid : block < b.blocks.length)
      (run : switchTo block b = .ok ((), b'))
  | markBlockBold (block : Block) (run : markBlockBold block b = .ok ((), b'))
  | terminateBlock (block : Block) (t : Terminator)
      (targets : ∀ j ∈ t.targets, j.target < b.blocks.length)
      (operands : ∀ v ∈ t.operands, v < b.ssaValues.length)
      (run : terminateBlock block t b = .ok ((), b'))
  | addBlockParameterAt (block : Block) (ty : TypeFull) {v : SSAValue}
      (run : addBlockParameterAt block ty b = .ok (v, b'))
  | emitStmtFull (n : ℕ) (rvalue : StmtKind) {outputs : List SSAValue}
      (operands : ∀ v ∈ rvalue.operands, v < b.ssaValues.length)
      (load : rvalue ≠ .loadHaltReason) (take : rvalue ≠ .takeHaltReason)
      (run : emitStmtFull n rvalue b = .ok (outputs, b'))
  | createStackSlot (size align : ℕ) {slot : StackSlot}
      (run : createStackSlot size align b = .ok (slot, b'))
  | scratchSpace (slot : StackSlot) (run : b' = { b with scratchSpace := some slot })

/-- The builders that calls produce from a new one. -/
inductive Built : ExecIrBuilder → Prop
  | withConfig (haltCheckEvery : NonZeroU32) : Built (ExecIrBuilder.withConfig haltCheckEvery)
  | call {b b' : ExecIrBuilder} : Built b → Call b b' → Built b'

/-! ## What a successful call did -/

theorem arenaGet_eq_ok {α : Type} {arena : List α} {handle : ℕ} {data : α} :
    arenaGet arena handle = .ok data ↔ arena[handle]? = some data := by
  unfold arenaGet
  cases arena[handle]? <;> simp

theorem checkTerminator_cases {b : ExecIrBuilder} {t t' : Terminator}
    (h : b.checkTerminator t = .ok t') :
    t' = t ∨ ∃ cond jump, t = .brZ cond jump jump ∧ t' = .br jump := by
  cases t with
  | ret | br => exact .inl (Except.ok.inj h).symm
  | returnCode v =>
    simp only [checkTerminator, bind_eq_ok] at h
    obtain ⟨ty, -, h⟩ := h
    cases ty <;> simp [pure_eq_ok, throw_ne_ok] at h
    exact .inl h.symm
  | brZ cond zero nonZero =>
    simp only [checkTerminator, bind_eq_ok] at h
    obtain ⟨ty, -, h⟩ := h
    cases ty <;> simp only [pure_eq_ok, throw_ne_ok] at h
    all_goals
      by_cases heq : zero = nonZero
      · subst heq
        exact .inr ⟨cond, zero, rfl, by simpa using h.symm⟩
      · exact .inl (by simpa [heq] using h.symm)

/-- A checked terminator has no new jumps and no new operands. -/
theorem checkTerminator_sub {b : ExecIrBuilder} {t t' : Terminator}
    (h : b.checkTerminator t = .ok t') :
    (∀ j ∈ t'.targets, j ∈ t.targets) ∧ ∀ v ∈ t'.operands, v ∈ t.operands := by
  rcases checkTerminator_cases h with rfl | ⟨cond, jump, rfl, rfl⟩
  · exact ⟨fun _ hj => hj, fun _ hv => hv⟩
  · constructor
    · simp [Terminator.targets]
    · intro v hv
      simp only [Terminator.operands] at hv ⊢
      simp [hv]

theorem terminateBlock_eq_ok {b b' : ExecIrBuilder} {block : Block} {t : Terminator}
    (h : terminateBlock block t b = .ok ((), b')) :
    ∃ t' data, b.checkTerminator t = .ok t' ∧ Block.ENTRYPOINT ∉ t'.blockTargets ∧
      b.blocks[block]? = some data ∧ data.terminated = false ∧
      b' = { b with
        blocks := b.blocks.set block { data with terminator := t', terminated := true } } := by
  simp only [terminateBlock, bind_eq_ok, require_eq_ok, arenaGet_eq_ok, pure_eq_ok] at h
  obtain ⟨t', ht', -, hentry, data, hdata, -, hterm, hb'⟩ := h
  exact ⟨t', data, ht', hentry, hdata, hterm, (Prod.mk.inj hb').2.symm⟩

theorem emitStmtFull_eq_ok {b b' : ExecIrBuilder} {n : ℕ} {rvalue : StmtKind}
    {outputs : List SSAValue} (h : emitStmtFull n rvalue b = .ok (outputs, b')) :
    ∃ tys data, b.typeOf rvalue = .ok tys ∧ tys.length = n ∧
      b.blocks[b.currentBlock]? = some data ∧
      outputs = List.range' b.ssaValues.length tys.length ∧
      b' = b.pushStmt b.currentBlock data tys rvalue := by
  simp only [emitStmtFull, bind_eq_ok, require_eq_ok, arenaGet_eq_ok, pure_eq_ok] at h
  obtain ⟨tys, htys, -, hlen, data, hdata, hb'⟩ := h
  obtain ⟨hout, hb'⟩ := Prod.mk.inj hb'
  exact ⟨tys, data, htys, hlen, hdata, hout.symm, hb'.symm⟩

/-! ## Well-formedness -/

/-- What holds of one block of a well-formed builder `b`. -/
structure BlockData.WF (b : ExecIrBuilder) (data : BlockData) : Prop where
  stmts_lt : ∀ s ∈ data.stmts, s < b.stmts.length
  targets : ∀ t ∈ data.terminator.blockTargets, t ≠ Block.ENTRYPOINT ∧ t < b.blocks.length
  operands_lt : ∀ v ∈ data.terminator.operands, v < b.ssaValues.length
  parameters_lt : ∀ v ∈ data.parameters, v < b.ssaValues.length
  parameters_nodup : data.parameters.Nodup

/-- What holds of one statement of a well-formed builder `b`. -/
structure StmtData.WF (b : ExecIrBuilder) (stmt : StmtData) : Prop where
  operands_lt : ∀ v ∈ stmt.rvalue.operands, v < b.ssaValues.length
  outputs_lt : ∀ v ∈ stmt.outputs, v < b.ssaValues.length
  not_load : stmt.rvalue ≠ .loadHaltReason
  not_take : stmt.rvalue ≠ .takeHaltReason

/-- A well-formed builder. -/
structure WF (b : ExecIrBuilder) : Prop where
  entry : Block.ENTRYPOINT < b.blocks.length
  blocks : ∀ data ∈ b.blocks, data.WF b
  stmts : ∀ stmt ∈ b.stmts, stmt.WF b
  nodup : (b.blocks.flatMap BlockData.stmts).Nodup
  leave : b.leaveAndTakeHalt = none

/-- The arenas of `b'` are at least as long as those of `b`. -/
structure Grows (b b' : ExecIrBuilder) : Prop where
  ssaValues : b.ssaValues.length ≤ b'.ssaValues.length
  blocks : b.blocks.length ≤ b'.blocks.length
  stmts : b.stmts.length ≤ b'.stmts.length

theorem BlockData.WF.mono {b b' : ExecIrBuilder} {data : BlockData} (h : data.WF b)
    (hg : Grows b b') : data.WF b' where
  stmts_lt s hs := lt_of_lt_of_le (h.stmts_lt s hs) hg.stmts
  targets t ht := ⟨(h.targets t ht).1, lt_of_lt_of_le (h.targets t ht).2 hg.blocks⟩
  operands_lt v hv := lt_of_lt_of_le (h.operands_lt v hv) hg.ssaValues
  parameters_lt v hv := lt_of_lt_of_le (h.parameters_lt v hv) hg.ssaValues
  parameters_nodup := h.parameters_nodup

theorem StmtData.WF.mono {b b' : ExecIrBuilder} {stmt : StmtData} (h : stmt.WF b)
    (hg : Grows b b') : stmt.WF b' where
  operands_lt v hv := lt_of_lt_of_le (h.operands_lt v hv) hg.ssaValues
  outputs_lt v hv := lt_of_lt_of_le (h.outputs_lt v hv) hg.ssaValues
  not_load := h.not_load
  not_take := h.not_take

theorem BlockData.empty_wf (b : ExecIrBuilder) : BlockData.empty.WF b where
  stmts_lt := by simp [BlockData.empty]
  targets := by simp [BlockData.empty, Terminator.blockTargets, Terminator.targets]
  operands_lt := by simp [BlockData.empty, Terminator.operands]
  parameters_lt := by simp [BlockData.empty]
  parameters_nodup := by simp [BlockData.empty]

theorem wf_withConfig (n : NonZeroU32) : WF (ExecIrBuilder.withConfig n) where
  entry := by simp [withConfig, Block.ENTRYPOINT]
  blocks := by
    intro data hdata
    obtain rfl : data = { BlockData.empty with parameters := Arg.args.map Arg.asSSAValue } := by
      simpa [withConfig] using hdata
    refine ⟨?_, ?_, ?_, ?_, ?_⟩
    · simp [BlockData.empty]
    · simp [BlockData.empty, Terminator.blockTargets, Terminator.targets]
    · simp [BlockData.empty, Terminator.operands]
    · simp only [withConfig, Arg.args, List.map, Arg.asSSAValue]
      decide
    · decide
  stmts := by simp [withConfig]
  nodup := by simp [withConfig, BlockData.empty]
  leave := rfl

/-- Replacing the data of one block, its statements kept or extended by a new one. -/
theorem WF.set_block {b b' : ExecIrBuilder} {block : Block} {data data' : BlockData}
    {new : List Stmt} (h : WF b) (hg : Grows b b') (hdata : b.blocks[block]? = some data)
    (hblocks : b'.blocks = b.blocks.set block data') (hstmts : data'.stmts = data.stmts ++ new)
    (hnew : new.Nodup ∧ ∀ s ∈ new, b.stmts.length ≤ s) (hwf : data'.WF b')
    (hdefs : ∀ stmt ∈ b'.stmts, stmt ∈ b.stmts ∨ stmt.WF b')
    (hleave : b'.leaveAndTakeHalt = b.leaveAndTakeHalt) : WF b' where
  entry := by rw [hblocks, List.length_set]; exact h.entry
  blocks := by
    intro d hd
    rw [hblocks] at hd
    rcases List.mem_or_eq_of_mem_set hd with hd | rfl
    · exact (h.blocks d hd).mono hg
    · exact hwf
  stmts := by
    intro stmt hstmt
    rcases hdefs stmt hstmt with hold | hnew
    · exact (h.stmts stmt hold).mono hg
    · exact hnew
  nodup := by
    have hperm :
        (b'.blocks.flatMap BlockData.stmts).Perm (b.blocks.flatMap BlockData.stmts ++ new) := by
      rw [hblocks]
      exact flatMap_set_perm hdata (by rw [hstmts])
    rw [hperm.nodup_iff, List.nodup_append]
    refine ⟨h.nodup, hnew.1, ?_⟩
    intro s hs s' hs' heq
    obtain ⟨d, hd, hsd⟩ := List.mem_flatMap.1 hs
    have hlt := (h.blocks d hd).stmts_lt s hsd
    have hle := hnew.2 s' hs'
    lia
  leave := by rw [hleave]; exact h.leave

/-- Appending an empty block. -/
theorem WF.createBlock {b b' : ExecIrBuilder} {block : Block} (h : WF b)
    (run : createBlock b = .ok (block, b')) : WF b' := by
  obtain ⟨-, rfl⟩ := Prod.mk.inj (Except.ok.inj run)
  have hg : Grows b { b with blocks := b.blocks ++ [BlockData.empty] } :=
    ⟨le_refl _, by simp, le_refl _⟩
  refine ⟨?_, ?_, ?_, ?_, h.leave⟩
  · exact lt_of_lt_of_le h.entry hg.blocks
  · intro data hdata
    rcases List.mem_append.1 hdata with hold | hnew
    · exact (h.blocks data hold).mono hg
    · rw [List.mem_singleton] at hnew
      subst hnew
      exact BlockData.empty_wf _
  · intro stmt hstmt
    exact (h.stmts stmt hstmt).mono hg
  · simpa [BlockData.empty] using h.nodup

/-- The fields that well-formedness reads are unchanged. -/
theorem WF.congr {b b' : ExecIrBuilder} (h : WF b) (hs : b'.ssaValues = b.ssaValues)
    (hb : b'.blocks = b.blocks) (ht : b'.stmts = b.stmts)
    (hl : b'.leaveAndTakeHalt = b.leaveAndTakeHalt) : WF b' := by
  have hg : Grows b b' := ⟨by rw [hs], by rw [hb], by rw [ht]⟩
  refine ⟨?_, ?_, ?_, ?_, ?_⟩
  · rw [hb]; exact h.entry
  · intro data hdata
    exact (h.blocks data (hb ▸ hdata)).mono hg
  · intro stmt hstmt
    exact (h.stmts stmt (ht ▸ hstmt)).mono hg
  · rw [hb]; exact h.nodup
  · rw [hl]; exact h.leave

theorem WF.markBlockBold {b b' : ExecIrBuilder} {block : Block} (h : WF b)
    (run : markBlockBold block b = .ok ((), b')) : WF b' := by
  unfold ExecIrBuilder.markBlockBold at run
  split_ifs at run with hentry
  · obtain ⟨-, rfl⟩ := Prod.mk.inj (Except.ok.inj run)
    exact h
  · simp only [bind_eq_ok, arenaGet_eq_ok, pure_eq_ok] at run
    obtain ⟨data, hdata, hb'⟩ := run
    obtain ⟨-, rfl⟩ := Prod.mk.inj hb'
    have hold := h.blocks data (List.mem_of_getElem? hdata)
    have hg : Grows b { b with blocks := b.blocks.set block { data with isCold := true } } :=
      ⟨le_refl _, by simp, le_refl _⟩
    have hmono := hold.mono hg
    exact h.set_block hg hdata rfl (List.append_nil _).symm ⟨List.nodup_nil, by simp⟩
      ⟨hmono.stmts_lt, hmono.targets, hmono.operands_lt, hmono.parameters_lt,
        hmono.parameters_nodup⟩ (fun stmt hstmt => .inl hstmt) rfl

theorem WF.terminateBlock {b b' : ExecIrBuilder} {block : Block} {t : Terminator} (h : WF b)
    (htargets : ∀ j ∈ t.targets, j.target < b.blocks.length)
    (hoperands : ∀ v ∈ t.operands, v < b.ssaValues.length)
    (run : terminateBlock block t b = .ok ((), b')) : WF b' := by
  obtain ⟨t', data, ht', hentry, hdata, -, rfl⟩ := terminateBlock_eq_ok run
  have hold := h.blocks data (List.mem_of_getElem? hdata)
  obtain ⟨hsub, hops⟩ := checkTerminator_sub ht'
  refine h.set_block ⟨le_refl _, by simp, le_refl _⟩ hdata rfl (List.append_nil _).symm
    ⟨List.nodup_nil, by simp⟩ ?_ (fun stmt hstmt => .inl hstmt) rfl
  refine ⟨hold.stmts_lt, ?_, fun v hv => hoperands v (hops v hv), hold.parameters_lt,
    hold.parameters_nodup⟩
  intro target ht
  refine ⟨fun heq => hentry (heq ▸ ht), ?_⟩
  obtain ⟨j, hj, rfl⟩ := Terminator.mem_blockTargets.1 ht
  simpa using htargets j (hsub j hj)

theorem WF.addBlockParameterAt {b b' : ExecIrBuilder} {block : Block} {ty : TypeFull}
    {v : SSAValue} (h : WF b) (run : addBlockParameterAt block ty b = .ok (v, b')) : WF b' := by
  simp only [ExecIrBuilder.addBlockParameterAt, bind_eq_ok, arenaGet_eq_ok, pure_eq_ok] at run
  obtain ⟨data, hdata, hb'⟩ := run
  obtain ⟨-, rfl⟩ := Prod.mk.inj hb'
  have hold := h.blocks data (List.mem_of_getElem? hdata)
  refine h.set_block ⟨by simp, by simp, le_refl _⟩ hdata rfl (List.append_nil _).symm
    ⟨List.nodup_nil, by simp⟩ ?_ (fun stmt hstmt => .inl hstmt) rfl
  refine ⟨hold.stmts_lt, by simpa using hold.targets, ?_, ?_, ?_⟩
  · intro u hu
    have := hold.operands_lt u hu
    simp only [List.length_append, List.length_singleton]
    lia
  · intro u hu
    simp only [List.mem_append, List.mem_singleton, List.length_append,
      List.length_singleton] at hu ⊢
    rcases hu with hu | rfl
    · have := hold.parameters_lt u hu
      lia
    · lia
  · rw [List.nodup_append]
    refine ⟨hold.parameters_nodup, List.nodup_singleton _, ?_⟩
    intro u hu w hw heq
    rw [List.mem_singleton] at hw
    have := hold.parameters_lt u hu
    lia

theorem WF.emitStmtFull {b b' : ExecIrBuilder} {n : ℕ} {rvalue : StmtKind}
    {outputs : List SSAValue} (h : WF b)
    (hoperands : ∀ v ∈ rvalue.operands, v < b.ssaValues.length)
    (hload : rvalue ≠ .loadHaltReason) (htake : rvalue ≠ .takeHaltReason)
    (run : emitStmtFull n rvalue b = .ok (outputs, b')) : WF b' := by
  obtain ⟨tys, data, -, -, hdata, -, rfl⟩ := emitStmtFull_eq_ok run
  have hold := h.blocks data (List.mem_of_getElem? hdata)
  have hg : Grows b (b.pushStmt b.currentBlock data tys rvalue) :=
    ⟨by simp [pushStmt], by simp [pushStmt], by simp [pushStmt]⟩
  have hmono := hold.mono hg
  refine h.set_block hg hdata rfl rfl ⟨List.nodup_singleton _, by simp⟩ ?_ ?_ rfl
  · refine ⟨?_, hmono.targets, hmono.operands_lt, hmono.parameters_lt, hmono.parameters_nodup⟩
    intro s hs
    rcases List.mem_append.1 hs with hs | hs
    · exact hmono.stmts_lt s hs
    · rw [List.mem_singleton] at hs
      simp [pushStmt, hs]
  · intro stmt hstmt
    rcases List.mem_append.1 hstmt with hs | hs
    · exact .inl hs
    · right
      rw [List.mem_singleton] at hs
      subst hs
      refine ⟨fun v hv => lt_of_lt_of_le (hoperands v hv) hg.ssaValues, ?_, hload, htake⟩
      intro v hv
      rw [List.mem_range'_1] at hv
      simp only [pushStmt, List.length_append]
      lia

/-- Every call keeps the builder well formed. -/
theorem WF.call {b b' : ExecIrBuilder} (h : WF b) (hc : Call b b') : WF b' := by
  cases hc with
  | createBlock run => exact h.createBlock run
  | switchTo block valid run =>
    obtain ⟨-, rfl⟩ := Prod.mk.inj (Except.ok.inj run)
    exact h.congr rfl rfl rfl rfl
  | markBlockBold block run => exact h.markBlockBold run
  | terminateBlock block t targets operands run => exact h.terminateBlock targets operands run
  | addBlockParameterAt block ty run => exact h.addBlockParameterAt run
  | emitStmtFull n rvalue operands load take run => exact h.emitStmtFull operands load take run
  | createStackSlot size align run =>
    simp only [ExecIrBuilder.createStackSlot, bind_eq_ok, require_eq_ok, pure_eq_ok] at run
    obtain ⟨-, -, hb'⟩ := run
    obtain ⟨-, rfl⟩ := Prod.mk.inj hb'
    exact h.congr rfl rfl rfl rfl
  | scratchSpace slot run =>
    subst run
    exact h.congr rfl rfl rfl rfl

theorem Built.wf {b : ExecIrBuilder} (h : Built b) : WF b := by
  induction h with
  | withConfig n => exact wf_withConfig n
  | call _ hc ih => exact ih.call hc

end RapidArm.Ir
