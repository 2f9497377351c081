import RapidArm.Backend.TopoSort
import RapidArm.HaltCheck.Meaning

/-!
# Lowering in compile order

`FunctionLowering` of `compiler/cranelift_backend.rs` translates the blocks in compile order. It
keeps the Cranelift value of every IR value it has lowered: `new` (lines 80–142) enters the block
parameters of all blocks, and `lower_stmt` (lines 200–214) the outputs of one statement.
`use_value` (lines 151–156) fails on a value that is not there yet.

The Cranelift function builder and the translation of one instruction stand behind a parameter.

Results:
* `lowerBlock_yields`: with every use dominated by its definition, the operands of a statement
  have been lowered when it is reached.
* `compile_order_dominates`: the compile order has every block after its dominators, so that no
  value is used before it is lowered.
-/

namespace RapidArm.Backend

open RapidArm.Ir RapidArm.Lib RapidArm.HaltCheck

/-- The function builder of Cranelift. -/
structure Cranelift where
  State : Type
  Value : Type
  ClifBlock : Type
  Error : Type
  init : State
  createBlock : State → ClifBlock × State
  appendBlockParam : ClifBlock → TypeFull → State → Value × State
  setColdBlock : ClifBlock → State → State
  blockParams : ClifBlock → State → List Value
  switchToBlock : ClifBlock → State → State
  /-- What `lower_rvalue` emits for a statement and its operands. -/
  ins : ExecIrBuilder → StmtKind → List Value → State → Except Error (List Value × State)
  /-- What `lower_terminator` emits for a condition or halt reason and its jumps. -/
  insTerminator : Terminator → List Value → List (ClifBlock × List Value) → State →
    Except Error State
  decEq : DecidableEq Value

/-- How the lowering can fail. -/
inductive LowerError (E : Type)
  | usedBeforeLowered (v : SSAValue)
  | missingClifBlock
  | missingEntry
  | entryArgs
  | mismatchedValues
  | keyNotUnique
  | invalidHandle
  | keyNotFound
  | backend (e : E)

/-- `FunctionLowering` (lines 47–58): what changes. -/
structure FunctionLowering (C : Cranelift) where
  values : SSAValue → Option C.Value
  blocks : Block → Option C.ClifBlock
  builder : C.State

namespace FunctionLowering

variable {C : Cranelift} (ir : ExecIrBuilder)

/-- Indexing an arena of the IR. -/
def get {α : Type} (arena : List α) (handle : ℕ) : Except (LowerError C.Error) α :=
  match arena[handle]? with
  | some data => .ok data
  | none => .error .invalidHandle

/-! ### `new` -/

/-- A block parameter (lines 108–113). -/
def addParam (clifBlock : C.ClifBlock) (s : FunctionLowering C) (param : SSAValue) :
    Except (LowerError C.Error) (FunctionLowering C) := do
  let ty ← get ir.ssaValues param
  let (clifParam, builder) := C.appendBlockParam clifBlock ty s.builder
  return { s with values := Function.update s.values param (some clifParam), builder }

/-- One block of the loop that creates the blocks (lines 104–120). -/
def addBlock (s : FunctionLowering C) (irBlock : Block) :
    Except (LowerError C.Error) (FunctionLowering C) := do
  let (clifBlock, builder) := C.createBlock s.builder
  let blockRef ← get ir.blocks irBlock
  let s ← blockRef.parameters.foldlM (addParam ir clifBlock) { s with builder }
  let builder := if blockRef.isCold then C.setColdBlock clifBlock s.builder else s.builder
  require (s.blocks irBlock = none) .keyNotUnique
  return { s with blocks := Function.update s.blocks irBlock (some clifBlock), builder }

/-- One pair of `assert_entry_args` (lines 75–77). -/
def assertEntryArg (s : FunctionLowering C) (p : Arg × C.Value) :
    Except (LowerError C.Error) Unit :=
  match s.values p.1.asSSAValue with
  | none => .error .keyNotFound
  | some value => haveI := C.decEq; require (value = p.2) .entryArgs

/-- `assert_entry_args` (lines 61–78). -/
def assertEntryArgs (s : FunctionLowering C) (entryBlock : C.ClifBlock) :
    Except (LowerError C.Error) Unit := do
  let params := C.blockParams entryBlock s.builder
  require (Arg.args.length = params.length) .entryArgs
  (Arg.args.zip params).forM (assertEntryArg s)

/-- `FunctionLowering::new` (lines 80–142). -/
def new (order : List Block) : Except (LowerError C.Error) (FunctionLowering C) := do
  let s ← order.foldlM (addBlock ir)
    { values := fun _ => none, blocks := fun _ => none, builder := C.init }
  match s.blocks Block.ENTRYPOINT with
  | none => .error .missingEntry
  | some entryBlock => do
    assertEntryArgs s entryBlock
    return s

/-! ### `lower_blocks` -/

/-- `use_value` (lines 151–156). -/
def useValue (s : FunctionLowering C) (ssaValue : SSAValue) : Except (LowerError C.Error) C.Value :=
  match s.values ssaValue with
  | some value => .ok value
  | none => .error (.usedBeforeLowered ssaValue)

/-- `clif_block` (lines 158–166). -/
def clifBlock (s : FunctionLowering C) (block : Block) : Except (LowerError C.Error) C.ClifBlock :=
  match s.blocks block with
  | some clifBlock => .ok clifBlock
  | none => .error .missingClifBlock

/-- `clif_jump` (lines 168–177). -/
def clifJump (s : FunctionLowering C) (jump : Jump) :
    Except (LowerError C.Error) (C.ClifBlock × List C.Value) := do
  let block ← s.clifBlock jump.target
  let values ← jump.parameters.mapM s.useValue
  return (block, values)

/-- The values that `lower_rvalue` (lines 377–709) uses, in its order. The halt reason is read
    through an argument of the function. -/
def rvalueUses : StmtKind → List SSAValue
  | .storeHost basePtr _ value _ => [value, basePtr]
  | .vmStoreRaw alignedPagePtr pageOffset value _ => [value, alignedPagePtr, pageOffset]
  | .loadHaltReason | .takeHaltReason => [Arg.haltReasonPtr.asSSAValue]
  | rvalue => rvalue.operands

/-- `lower_rvalue`. -/
def lowerRvalue (s : FunctionLowering C) (rvalue : StmtKind) :
    Except (LowerError C.Error) (List C.Value × FunctionLowering C) := do
  let operands ← (rvalueUses rvalue).mapM s.useValue
  let (values, builder) ← (C.ins ir rvalue operands s.builder).mapError .backend
  return (values, { s with builder })

/-- `insert_unique` of an output (line 210). -/
def insertOutput (s : FunctionLowering C) (p : C.Value × SSAValue) :
    Except (LowerError C.Error) (FunctionLowering C) := do
  require ((s.values p.2).isNone = true) .keyNotUnique
  return { s with values := Function.update s.values p.2 (some p.1) }

/-- `lower_stmt` (lines 200–214). -/
def lowerStmt (s : FunctionLowering C) (stmt : Stmt) :
    Except (LowerError C.Error) (FunctionLowering C) := do
  let data ← get ir.stmts stmt
  let (values, s) ← s.lowerRvalue ir data.rvalue
  require (data.outputs.length = values.length) .mismatchedValues
  (values.zip data.outputs).foldlM insertOutput s

/-- `lower_terminator` (lines 711–746). -/
def lowerTerminator (s : FunctionLowering C) (terminator : Terminator) :
    Except (LowerError C.Error) (FunctionLowering C) := do
  let (values, jumps) ← (match terminator with
    | .ret => .ok ([], [])
    | .returnCode haltReason => do
      let haltReason ← s.useValue haltReason
      return ([haltReason], [])
    | .br jump => do
      let jump ← s.clifJump jump
      return ([], [jump])
    | .brZ cond zero nonZero => do
      let cond ← s.useValue cond
      let nonZero ← s.clifJump nonZero
      let zero ← s.clifJump zero
      return ([cond], [nonZero, zero]) :
        Except (LowerError C.Error) (List C.Value × List (C.ClifBlock × List C.Value)))
  let builder ← (C.insTerminator terminator values jumps s.builder).mapError .backend
  return { s with builder }

/-- One block of `lower_blocks` (lines 749–761). -/
def lowerBlock (s : FunctionLowering C) (irBlock : Block) :
    Except (LowerError C.Error) (FunctionLowering C) := do
  let clifBlock ← s.clifBlock irBlock
  let s := { s with builder := C.switchToBlock clifBlock s.builder }
  let blockData ← get ir.blocks irBlock
  let s ← blockData.stmts.foldlM (lowerStmt ir) s
  s.lowerTerminator blockData.terminator

/-- `lower_blocks` (lines 748–764). -/
def lowerBlocks (s : FunctionLowering C) (order : List Block) :
    Except (LowerError C.Error) (FunctionLowering C) :=
  order.foldlM (lowerBlock ir) s

end FunctionLowering

/-- The part of `try_compile` that lowers a function (lines 924–926). -/
def lowerFunction (C : Cranelift) (ir : ExecIrBuilder) (order : List Block) :
    Except (LowerError C.Error) (FunctionLowering C) := do
  let lowering ← FunctionLowering.new ir order
  lowering.lowerBlocks ir order

/-! ## Definitions that dominate their uses -/

/-- The value is a parameter of a block that dominates `b`, or an output of a statement that
    comes before the `k`-th one of `b` in `b` itself or stands in another dominator. -/
def DefDominates (ir : ExecIrBuilder) (v : SSAValue) (b : Block) (k : ℕ) : Prop :=
  (∃ d, v ∈ (ir.blockD d).parameters ∧ Dominates ir d b) ∨
    ∃ d i s, (ir.blockD d).stmts[i]? = some s ∧ v ∈ outputsOf ir s ∧
      (d = b ∧ i < k ∨ d ≠ b ∧ Dominates ir d b)

/-- Every use in a reachable block is dominated by its definition. -/
def UsesDominated (ir : ExecIrBuilder) : Prop :=
  ∀ b, Reachable ir b → ∀ k, ∀ v ∈ usesAt ir b k, DefDominates ir v b k

theorem Dominates.reachable {ir : ExecIrBuilder} {d b : Block} (h : Dominates ir d b)
    (hb : Reachable ir b) : Reachable ir d := by
  obtain ⟨path, hpath, hlast⟩ := hb.path
  exact IsPath.reachable hpath (h path hpath hlast)

namespace FunctionLowering

variable {C : Cranelift} {ir : ExecIrBuilder}

/-- The value has been lowered. -/
def Lowered (s : FunctionLowering C) (v : SSAValue) : Prop := (s.values v).isSome = true

/-- Every other failure. -/
def NotUse (e : LowerError C.Error) : Prop := ∀ v, e ≠ .usedBeforeLowered v

theorem get_yields {α : Type} (arena : List α) (handle : ℕ) :
    Yields NotUse (get (C := C) arena handle) fun data => arena[handle]? = some data := by
  unfold get
  cases h : arena[handle]? with
  | some data => exact Yields.ok rfl
  | none => exact Yields.error fun v hv => by cases hv

theorem backend_yields {α : Type} (x : Except C.Error α) :
    Yields NotUse (x.mapError LowerError.backend) fun _ => True := by
  cases x with
  | ok a => exact Yields.ok trivial
  | error e => exact Yields.error fun v hv => by cases hv

theorem Lowered.update {s : FunctionLowering C} {v w : SSAValue} {value : C.Value} (h : s.Lowered v)
    {blocks : Block → Option C.ClifBlock} {builder : C.State} :
    Lowered ⟨Function.update s.values w (some value), blocks, builder⟩ v := by
  unfold Lowered
  by_cases hvw : v = w
  · simp [hvw]
  · show (Function.update s.values w (some value) v).isSome = true
    rw [Function.update_of_ne hvw]
    exact h

/-! ### Block parameters -/

theorem addBlock_yields (s : FunctionLowering C) (irBlock : Block) :
    Yields NotUse (addBlock ir s irBlock) fun s' =>
      (∀ v, s.Lowered v → s'.Lowered v) ∧ ∀ p ∈ (ir.blockD irBlock).parameters, s'.Lowered p := by
  unfold addBlock
  refine (get_yields ir.blocks irBlock).bind fun blockRef hget => ?_
  rw [blockD_eq hget]
  refine Yields.bind (Yields.foldlM (fun done (s' : FunctionLowering C) =>
    (∀ v, s.Lowered v → s'.Lowered v) ∧ ∀ p ∈ done, s'.Lowered p) ?_ ?_) fun s' hs' => ?_
  · exact ⟨fun v hv => hv, by simp⟩
  · rintro done param rest - s' ⟨hkept, hdone⟩
    refine (get_yields ir.ssaValues param).bind fun ty _ => Yields.ok ⟨?_, ?_⟩
    · exact fun v hv => (hkept v hv).update
    · intro p hp
      rcases List.mem_append.1 hp with hp | hp
      · exact (hdone p hp).update
      · rw [List.mem_singleton.1 hp]
        simp [Lowered]
  · refine (Yields.require fun _ v hv => by cases hv).bind fun _ _ => Yields.ok ?_
    exact hs'

/-- The entry block has a parameter for the last argument. -/
theorem assertEntryArgs_yields (s : FunctionLowering C) (entryBlock : C.ClifBlock) :
    Yields NotUse (assertEntryArgs s entryBlock) fun _ =>
      s.Lowered Arg.haltReasonPtr.asSSAValue := by
  unfold assertEntryArgs
  refine (Yields.require fun _ v hv => by cases hv).bind fun _ hlen => ?_
  refine (Yields.forM fun p _ => (?_ : Yields NotUse (assertEntryArg s p) fun _ =>
    s.Lowered p.1.asSSAValue)).mono fun _ hall => ?_
  · unfold assertEntryArg
    let _ := C.decEq
    cases hvalue : s.values p.1.asSSAValue with
    | none => exact Yields.error fun v hv => by cases hv
    | some value =>
      refine (Yields.require fun _ v hv => by cases hv).mono fun _ _ => ?_
      simp [Lowered, hvalue]
  · obtain ⟨p, hp, harg⟩ : ∃ p ∈ Arg.args.zip (C.blockParams entryBlock s.builder),
        p.1 = Arg.haltReasonPtr := by
      have hmem :
          Arg.haltReasonPtr ∈ (Arg.args.zip (C.blockParams entryBlock s.builder)).map Prod.fst := by
        rw [List.map_fst_zip hlen.le]
        decide
      obtain ⟨p, hp, harg⟩ := List.mem_map.1 hmem
      exact ⟨p, hp, harg⟩
    exact harg ▸ hall p hp

/-- All block parameters are there before the first block is lowered, those of the entry block
    being the arguments. -/
theorem new_yields (order : List Block) :
    Yields NotUse (new (C := C) ir order) fun s =>
      (∀ b ∈ order, ∀ p ∈ (ir.blockD b).parameters, s.Lowered p) ∧
        s.Lowered Arg.haltReasonPtr.asSSAValue := by
  unfold new
  refine (Yields.foldlM (fun done s => ∀ b ∈ done, ∀ p ∈ (ir.blockD b).parameters, s.Lowered p)
    (by simp) ?_).bind fun s hs => ?_
  · intro done b rest _ s hdone
    refine (addBlock_yields s b).mono fun s' ⟨hkept, hb⟩ b' hb' p hp => ?_
    rcases List.mem_append.1 hb' with hmem | hmem
    · exact hkept p (hdone b' hmem p hp)
    · rw [List.mem_singleton.1 hmem] at hp
      exact hb p hp
  · cases hentry : s.blocks Block.ENTRYPOINT with
    | none => exact Yields.error fun v hv => by cases hv
    | some entryBlock =>
      exact (assertEntryArgs_yields s entryBlock).bind fun _ hlast => Yields.ok ⟨hs, hlast⟩

/-! ### Statements -/

theorem useValue_yields {s : FunctionLowering C} {v : SSAValue} (h : s.Lowered v) :
    Yields NotUse (s.useValue v) fun _ => True := by
  obtain ⟨value, hvalue⟩ := Option.isSome_iff_exists.1 h
  unfold useValue
  rw [hvalue]
  exact Yields.ok trivial

/-- The uses of the lowering are the operands of the statement and the halt reason pointer. -/
theorem mem_rvalueUses {rvalue : StmtKind} {v : SSAValue} (h : v ∈ rvalueUses rvalue) :
    v ∈ rvalue.operands ∨ v = Arg.haltReasonPtr.asSSAValue := by
  cases rvalue with
  | storeHost basePtr offset value canMove =>
    left
    simpa [rvalueUses, StmtKind.operands, or_comm] using h
  | vmStoreRaw ptr offset value seqCst =>
    left
    simp only [rvalueUses, List.mem_cons, List.not_mem_nil, or_false] at h
    simp only [StmtKind.operands, List.mem_cons, List.not_mem_nil, or_false]
    tauto
  | loadHaltReason => exact .inr (List.mem_singleton.1 h)
  | takeHaltReason => exact .inr (List.mem_singleton.1 h)
  | _ => exact .inl h

/-- A statement whose operands have been lowered: its outputs are lowered after it. -/
theorem lowerStmt_yields {s : FunctionLowering C} {stmt : Stmt}
    (hptr : s.Lowered Arg.haltReasonPtr.asSSAValue)
    (huses : ∀ v ∈ operandsOf ir stmt, s.Lowered v) :
    Yields NotUse (s.lowerStmt ir stmt) fun s' =>
      (∀ v, s.Lowered v → s'.Lowered v) ∧ ∀ v ∈ outputsOf ir stmt, s'.Lowered v := by
  unfold lowerStmt
  refine (get_yields ir.stmts stmt).bind fun data hget => ?_
  have houtputs : outputsOf ir stmt = data.outputs := by
    unfold outputsOf
    rw [hget]
  have hoperands : operandsOf ir stmt = data.rvalue.operands := by
    unfold operandsOf
    rw [hget]
  rw [houtputs]
  have hrvalue : Yields NotUse (s.lowerRvalue ir data.rvalue) fun r => r.2.values = s.values := by
    unfold lowerRvalue
    refine (Yields.mapM fun v hv => ?_).bind fun operands _ => ?_
    · rcases mem_rvalueUses hv with hv | rfl
      · exact useValue_yields (huses v (hoperands ▸ hv))
      · exact useValue_yields hptr
    · exact (backend_yields _).bind fun _ _ => Yields.ok rfl
  refine hrvalue.bind fun r hr => ?_
  refine (Yields.require fun _ v hv => by cases hv).bind fun _ hlen => ?_
  refine (Yields.foldlM (fun done (s' : FunctionLowering C) => (∀ v, s.Lowered v → s'.Lowered v) ∧
    ∀ p ∈ done, s'.Lowered p.2) ?_ ?_).mono fun s' ⟨hkept, hall⟩ => ⟨hkept, fun v hv => ?_⟩
  · refine ⟨fun v hv => ?_, by simp⟩
    unfold Lowered
    rw [hr]
    exact hv
  · rintro done p rest - s' ⟨hkept, hdone⟩
    refine (Yields.require fun _ v hv => by cases hv).bind fun _ _ => Yields.ok ⟨?_, ?_⟩
    · exact fun v hv => (hkept v hv).update
    · intro q hq
      rcases List.mem_append.1 hq with hq | hq
      · exact (hdone q hq).update
      · rw [List.mem_singleton.1 hq]
        simp [Lowered]
  · have hmem : v ∈ (r.1.zip data.outputs).map Prod.snd := by
      rw [List.map_snd_zip hlen.le]
      exact hv
    obtain ⟨p, hp, rfl⟩ := List.mem_map.1 hmem
    exact hall p hp

theorem lowerTerminator_yields {s : FunctionLowering C} {terminator : Terminator}
    (huses : ∀ v ∈ terminator.operands, s.Lowered v) :
    Yields NotUse (s.lowerTerminator terminator) fun s' => s'.values = s.values := by
  have hjump : ∀ jump : Jump, (∀ v ∈ jump.parameters, s.Lowered v) →
      Yields NotUse (s.clifJump jump) fun _ => True := by
    intro jump hparams
    unfold clifJump clifBlock
    refine Yields.bind (?_ : Yields NotUse _ fun _ => True) fun block _ => ?_
    · cases s.blocks jump.target with
      | some block => exact Yields.ok trivial
      | none => exact Yields.error fun v hv => by cases hv
    · exact (Yields.mapM fun v hv => useValue_yields (hparams v hv)).bind fun _ _ =>
        Yields.ok trivial
  unfold lowerTerminator
  refine Yields.bind (?_ : Yields NotUse _ fun _ => True) fun _ _ =>
    (backend_yields _).bind fun _ _ => Yields.ok rfl
  cases terminator with
  | ret => exact Yields.ok trivial
  | returnCode v =>
    exact (useValue_yields (huses v (by simp [Terminator.operands]))).bind fun _ _ =>
      Yields.ok trivial
  | br jump =>
    exact (hjump jump fun v hv => huses v hv).bind fun _ _ => Yields.ok trivial
  | brZ cond zero nonZero =>
    refine (useValue_yields (huses cond (by simp [Terminator.operands]))).bind fun _ _ => ?_
    refine (hjump nonZero fun v hv => huses v (by simp [Terminator.operands, hv])).bind fun _ _ =>
      ?_
    exact (hjump zero fun v hv => huses v (by simp [Terminator.operands, hv])).bind fun _ _ =>
      Yields.ok trivial

/-! ### Blocks -/

/-- What has been lowered before a block: all block parameters, and the outputs of the blocks
    before it. -/
structure Ready (ir : ExecIrBuilder) (order done : List Block) (s : FunctionLowering C) : Prop where
  parameters : ∀ b ∈ order, ∀ p ∈ (ir.blockD b).parameters, s.Lowered p
  haltReason : s.Lowered Arg.haltReasonPtr.asSSAValue
  outputs : ∀ b ∈ done, ∀ stmt ∈ (ir.blockD b).stmts, ∀ v ∈ outputsOf ir stmt, s.Lowered v

theorem Ready.mono {order done : List Block} {s s' : FunctionLowering C} (h : Ready ir order done s)
    (hkept : ∀ v, s.Lowered v → s'.Lowered v) : Ready ir order done s' where
  parameters b hb p hp := hkept p (h.parameters b hb p hp)
  haltReason := hkept _ h.haltReason
  outputs b hb stmt hstmt v hv := hkept v (h.outputs b hb stmt hstmt v hv)

/-- A use that is dominated by its definition finds it lowered. -/
theorem Ready.use {order done after : List Block} {b : Block} {s : FunctionLowering C}
    (hready : Ready ir order done s) (horder : CompileOrder ir order)
    (hsplit : order = done ++ b :: after) {k : ℕ}
    (hstmts : ∀ stmt ∈ (ir.blockD b).stmts.take k, ∀ v ∈ outputsOf ir stmt, s.Lowered v)
    {v : SSAValue} (hdef : DefDominates ir v b k) : s.Lowered v := by
  have hb : Reachable ir b := (horder.mem b).1 (by rw [hsplit]; simp)
  rcases hdef with ⟨d, hv, hd⟩ | ⟨d, i, stmt, hstmt, hv, ⟨rfl, hik⟩ | ⟨hne, hd⟩⟩
  · exact hready.parameters d ((horder.mem d).2 (hd.reachable hb)) v hv
  · refine hstmts stmt (List.mem_of_getElem? (i := i) ?_) v hv
    rw [List.getElem?_take_of_lt hik]
    exact hstmt
  · have hmem := horder.dominators done b after hsplit d hd hne
    exact hready.outputs d hmem stmt (List.mem_of_getElem? hstmt) v hv

theorem lowerBlock_yields {order done after : List Block} {b : Block} {s : FunctionLowering C}
    (hready : Ready ir order done s) (horder : CompileOrder ir order) (huses : UsesDominated ir)
    (hsplit : order = done ++ b :: after) :
    Yields NotUse (s.lowerBlock ir b) (Ready ir order (done ++ [b])) := by
  have hb : Reachable ir b := (horder.mem b).1 (by rw [hsplit]; simp)
  unfold lowerBlock clifBlock
  refine Yields.bind (?_ : Yields NotUse _ fun _ => True) fun clifBlock _ => ?_
  · cases s.blocks b with
    | some block => exact Yields.ok trivial
    | none => exact Yields.error fun v hv => by cases hv
  refine (get_yields ir.blocks b).bind fun data hget => ?_
  have hdata := blockD_eq hget
  refine Yields.bind (Yields.foldlM (fun doneStmts (s' : FunctionLowering C) =>
    Ready ir order done s' ∧ ∀ stmt ∈ doneStmts, ∀ v ∈ outputsOf ir stmt, s'.Lowered v) ?_ ?_)
    fun s' hs' => ?_
  · exact ⟨hready.mono fun v hv => hv, by simp⟩
  · rintro doneStmts stmt rest hstmts s' ⟨hready', hdone⟩
    have htake : (ir.blockD b).stmts.take doneStmts.length = doneStmts := by
      rw [hdata, hstmts, List.take_left]
    have hat : usesAt ir b doneStmts.length = operandsOf ir stmt := by
      unfold usesAt
      rw [hdata, hstmts, List.getElem?_append_right le_rfl, Nat.sub_self]
      rfl
    refine (lowerStmt_yields hready'.haltReason fun v hv => ?_).mono fun s'' ⟨hkept, hout⟩ => ?_
    · exact hready'.use horder hsplit (htake.symm ▸ hdone) (huses b hb _ v (hat ▸ hv))
    · refine ⟨hready'.mono hkept, fun stmt' hmem v hv => ?_⟩
      rcases List.mem_append.1 hmem with hmem | hmem
      · exact hkept v (hdone stmt' hmem v hv)
      · rw [List.mem_singleton.1 hmem] at hv
        exact hout v hv
  · obtain ⟨hready', hall⟩ := hs'
    have hat : usesAt ir b data.stmts.length = data.terminator.operands := by
      unfold usesAt
      rw [hdata, List.getElem?_eq_none le_rfl]
    refine (lowerTerminator_yields fun v hv => ?_).mono fun s'' hvalues => ?_
    · refine hready'.use horder hsplit ?_ (huses b hb _ v (hat ▸ hv))
      rw [hdata, List.take_length]
      exact hall
    · have hkept : ∀ v, s'.Lowered v → s''.Lowered v := by
        intro v hv
        unfold Lowered
        rw [hvalues]
        exact hv
      refine ⟨(hready'.mono hkept).parameters, (hready'.mono hkept).haltReason, ?_⟩
      intro b' hb' stmt hstmt v hv
      rcases List.mem_append.1 hb' with hmem | hmem
      · exact hkept v (hready'.outputs b' hmem stmt hstmt v hv)
      · rw [List.mem_singleton.1 hmem, hdata] at hstmt
        exact hkept v (hall stmt hstmt v hv)

theorem lowerFunction_yields {order : List Block} (horder : CompileOrder ir order)
    (huses : UsesDominated ir) : Yields NotUse (lowerFunction C ir order) fun _ => True := by
  unfold lowerFunction
  refine (new_yields order).bind fun s ⟨hparams, hptr⟩ => ?_
  refine (Yields.foldlM (Ready ir order) ⟨hparams, hptr, by simp⟩ ?_).mono fun _ _ => trivial
  exact fun done b rest hsplit s hready => lowerBlock_yields hready horder huses hsplit

end FunctionLowering

/-- `topo_sort` never panics. It returns each reachable block once, the entry block first, after
    all blocks that dominate it and, without a cycle, after all its predecessors. In this order no
    value is used before it was lowered, if every use is dominated by its definition. -/
theorem compile_order_dominates {ir : ExecIrBuilder} (ht : TargetsExist ir) :
    ∃ order, topoSort ir = .ok order ∧ CompileOrder ir order ∧
      (UsesDominated ir → ∀ (C : Cranelift) (v : SSAValue),
        lowerFunction C ir order ≠ .error (.usedBeforeLowered v)) := by
  obtain ⟨order, hrun, horder⟩ := topoSort_spec ht
  refine ⟨order, hrun, horder, fun huses C v herror => ?_⟩
  exact (FunctionLowering.lowerFunction_yields horder huses).2 _ herror v rfl

/-- A block that defines a constant, and a second one that uses it. -/
def usesBuilder : ExecIrBuilder :=
  { ExecIrBuilder.withConfig ⟨3, by decide, by decide⟩ with
    blocks := [
      { BlockData.empty with
        parameters := Arg.args.map Arg.asSSAValue, stmts := [0], terminator := .br ⟨1, []⟩ },
      { BlockData.empty with stmts := [1], terminator := .returnCode 7 }]
    stmts := [⟨[6], .iconst (IConst.u32 1)⟩, ⟨[7], .intNeg 6⟩] }

theorem usesBuilder_targetsExist : TargetsExist usesBuilder where
  entry := by decide
  targets u v huv := by
    match u with
    | 0 => exact List.mem_singleton.1 huv ▸ (by decide)
    | 1 => cases huv
    | u + 2 => cases huv

theorem usesBuilder_dominated : UsesDominated usesBuilder := by
  intro b _ k v hv
  match b, k with
  | 0, 0 => cases hv
  | 0, _ + 1 => cases hv
  | 1, 0 =>
    obtain rfl := List.mem_singleton.1 hv
    refine .inr ⟨0, 0, 0, rfl, List.mem_singleton.2 rfl, .inr ⟨by decide, fun path hpath _ => ?_⟩⟩
    exact List.mem_of_mem_head? hpath.1
  | 1, k + 1 =>
    obtain rfl := List.mem_singleton.1 hv
    exact .inr ⟨1, 0, 1, rfl, List.mem_singleton.2 rfl, .inl ⟨rfl, Nat.succ_pos k⟩⟩
  | _ + 2, _ => cases hv

theorem compile_order_dominates_uses :
    ∃ order, topoSort usesBuilder = .ok order ∧ CompileOrder usesBuilder order ∧
      ∀ (C : Cranelift) (v : SSAValue),
        lowerFunction C usesBuilder order ≠ .error (.usedBeforeLowered v) := by
  obtain ⟨order, hrun, horder, hlower⟩ := compile_order_dominates usesBuilder_targetsExist
  exact ⟨order, hrun, horder, hlower usesBuilder_dominated⟩

end RapidArm.Backend
