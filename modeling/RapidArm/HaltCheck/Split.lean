import RapidArm.HaltCheck.Tarjan

/-!
# Inserting one halt check

The model of `get_leave_and_take_halt` and `insert_halt_check_at` of
`jit-compiler-core/src/ir/mod.rs` (lines 2083–2179): a block is split after a
`Safepoint`, its first part loads the halt reason and branches to the rest or to the
block that takes the halt reason and returns it.

Results:
* `insertHaltCheckAt_spec`: the insertion succeeds after every safepoint, and what it
  did to the builder (`Split`).
-/

namespace RapidArm.Ir

open RapidArm.Lib

namespace ExecIrBuilder

/-- `ExecIrBuilder::get_leave_and_take_halt` (lines 2083–2099). -/
def getLeaveAndTakeHalt : BuilderM Block := do
  match (← get).leaveAndTakeHalt with
  | some fail => return fail
  | none => do
    let fail ← createBlock
    blockScope fail do
      markCurrentBlockCold
      let finalHaltReason ← emit1RetStmt .takeHaltReason
      terminate (.returnCode finalHaltReason)
    require ((← get).leaveAndTakeHalt = none) Panic.debugAssertion
    modify fun b => { b with leaveAndTakeHalt := some fail }
    return fail

/-- The check of `insert_halt_check_at` (lines 2132–2142): the statement before
    `insert_at` is a `Safepoint`. -/
def isAfterSafepoint (b : ExecIrBuilder) (data : BlockData) (insertAt : ℕ) : Except Panic Bool :=
  match insertAt with
  | 0 => .ok false
  | instructionEnd + 1 => do
    let stmt ← arenaGet data.stmts instructionEnd
    let stmtData ← arenaGet b.stmts stmt
    return stmtData.rvalue == .safepoint

/-- The split of `insert_halt_check_at` (lines 2144–2157): the first part of the block,
    unterminated in effect, and the continuation with the rest and the old terminator. -/
def splitOff (b : ExecIrBuilder) (block : Block) (data : BlockData) (insertAt : ℕ) :
    ExecIrBuilder :=
  { b with
    blocks :=
      b.blocks.set block { data with stmts := data.stmts.take insertAt, terminator := .ret } ++
      [{ parameters := [], stmts := data.stmts.drop insertAt, terminated := data.terminated,
         terminator := data.terminator, isCold := data.isCold }] }

/-- `block_data.terminated = false` (line 2172). -/
def unterminate (block : Block) : BuilderM Unit := fun b => do
  let data ← arenaGet b.blocks block
  return ((), { b with blocks := b.blocks.set block { data with terminated := false } })

/-- `ExecIrBuilder::insert_halt_check_at` (lines 2128–2179). -/
def insertHaltCheckAt (block : Block) (insertAt : ℕ) : BuilderM Block := do
  let b ← get
  let data ← arenaGet b.blocks block
  let isAfterSafepoint ← b.isAfterSafepoint data insertAt
  require (isAfterSafepoint = true) Panic.notAfterSafepoint
  let continuation := b.blocks.length
  set (b.splitOff block data insertAt)
  let leaveAndTakeHalt ← getLeaveAndTakeHalt
  let maybeHaltReason ← blockScope block (emit1RetStmt .loadHaltReason)
  unterminate block
  terminateBlock block (.brZ maybeHaltReason ⟨continuation, []⟩ ⟨leaveAndTakeHalt, []⟩)
  return continuation

end ExecIrBuilder

open ExecIrBuilder

/-- The block that takes the halt reason with the statement `take` and returns it. -/
structure LeaveBlock (ir : ExecIrBuilder) (leave : Block) (take : Stmt)
    (reason : SSAValue) : Prop where
  block : ∃ data, ir.blocks[leave]? = some data ∧ data.parameters = [] ∧ data.stmts = [take] ∧
    data.terminator = .returnCode reason
  take : ir.stmts[take]? = some ⟨[reason], .takeHaltReason⟩

/-- What the insertion of a halt check after the `i`-th statement of `block` does: `load`
    and `reason` are the new statement and its value. -/
structure Split (ir ir' : ExecIrBuilder) (block : Block) (data : BlockData) (i : ℕ) (leave : Block)
    (load : Stmt) (reason : SSAValue) : Prop where
  get : ir.blocks[block]? = some data
  first : ir'.blocks[block]? = some { data with
    stmts := data.stmts.take (i + 1) ++ [load]
    terminator := .brZ reason ⟨ir.blocks.length, []⟩ ⟨leave, []⟩
    terminated := true }
  continuation : ir'.blocks[ir.blocks.length]? = some {
    parameters := []
    stmts := data.stmts.drop (i + 1)
    terminated := data.terminated
    terminator := data.terminator
    isCold := data.isCold }
  others : ∀ b < ir.blocks.length, b ≠ block → ir'.blocks[b]? = ir.blocks[b]?
  fresh : ∀ b < ir'.blocks.length, b ≤ ir.blocks.length ∨ b = leave
  grows : ir.blocks.length < ir'.blocks.length
  stmts : ir.stmts <+: ir'.stmts
  notSafepoint : ∀ s, ir.stmts.length ≤ s → ir'.isSafepoint s = false
  load_new : ir.stmts.length ≤ load
  load_data : ir'.stmts[load]? = some ⟨[reason], .loadHaltReason⟩
  ssaValues : ir.ssaValues <+: ir'.ssaValues
  reason_new : ir.ssaValues.length ≤ reason
  leave_eq : ir'.leaveAndTakeHalt = some leave
  leave_old : ir.leaveAndTakeHalt = some leave ∨
    (ir.leaveAndTakeHalt = none ∧ ir.blocks.length < leave ∧
      ∃ take v, LeaveBlock ir' leave take v ∧ ir.stmts.length ≤ take ∧ ir.ssaValues.length ≤ v)
  haltCheckEvery : ir'.haltCheckEvery = ir.haltCheckEvery

/-! ## Running the emitters -/

section Runs

variable {b : ExecIrBuilder} {block : Block} {data : BlockData}

theorem builder_bind {α β : Type} {x : BuilderM α} {f : α → BuilderM β} {b c d : ExecIrBuilder}
    {a : α} {r : β} (hx : x b = .ok (a, c)) (hf : f a c = .ok (r, d)) :
    (x >>= f) b = .ok (r, d) := by
  show (x b >>= fun p => f p.1 p.2) = _
  rw [hx]
  exact hf

theorem builder_lift {α : Type} {x : Except Panic α} {a : α} (h : x = .ok a) :
    (liftM x : BuilderM α) b = .ok (a, b) := by
  rw [h]
  rfl

theorem blockScope_eq {α : Type} {emitter : BuilderM α} {a : α} {b' : ExecIrBuilder}
    (h : emitter { b with currentBlock := block } = .ok (a, b')) :
    blockScope block emitter b = .ok (a, { b' with currentBlock := b.currentBlock }) := by
  unfold blockScope
  rw [h]
  rfl

theorem emit1RetStmt_eq {r : StmtKind} {t : TypeFull} (hty : b.typeOf r = .ok [t])
    (hdata : b.blocks[b.currentBlock]? = some data) :
    emit1RetStmt r b = .ok (b.ssaValues.length, b.pushStmt b.currentBlock data [t] r) := by
  have hfull : emitStmtFull 1 r b =
      .ok ([b.ssaValues.length], b.pushStmt b.currentBlock data [t] r) := by
    unfold emitStmtFull
    rw [hty, ok_bind]
    exact bind_eq_ok.2 ⟨(), require_eq_ok.2 rfl, bind_eq_ok.2 ⟨data, arenaGet_eq_ok.2 hdata, rfl⟩⟩
  exact builder_bind hfull rfl

theorem unterminate_eq (hdata : b.blocks[block]? = some data) :
    unterminate block b =
      .ok ((), { b with blocks := b.blocks.set block { data with terminated := false } }) := by
  exact bind_eq_ok.2 ⟨data, arenaGet_eq_ok.2 hdata, rfl⟩

theorem terminateBlock_eq {t u : Terminator} (hcheck : b.checkTerminator t = .ok u)
    (hentry : Block.ENTRYPOINT ∉ u.blockTargets) (hdata : b.blocks[block]? = some data)
    (hopen : data.terminated = false) :
    terminateBlock block t b = .ok ((), { b with
      blocks := b.blocks.set block { data with terminator := u, terminated := true } }) := by
  refine bind_eq_ok.2 ⟨u, hcheck, bind_eq_ok.2 ⟨(), require_eq_ok.2 hentry, ?_⟩⟩
  exact bind_eq_ok.2 ⟨data, arenaGet_eq_ok.2 hdata, bind_eq_ok.2 ⟨(), require_eq_ok.2 hopen, rfl⟩⟩

end Runs

/-! ## The block to leave by -/

/-- The builder with a new block that takes and returns the halt reason. -/
def withLeaveBlock (b : ExecIrBuilder) : ExecIrBuilder :=
  { b with
    ssaValues := b.ssaValues ++ [.int .w32]
    stmts := b.stmts ++ [⟨[b.ssaValues.length], .takeHaltReason⟩]
    blocks := b.blocks ++ [{
      parameters := []
      stmts := [b.stmts.length]
      terminated := true
      terminator := .returnCode b.ssaValues.length
      isCold := true }]
    leaveAndTakeHalt := some b.blocks.length }

theorem set_append_length {α : Type} (l : List α) (x y : α) :
    (l ++ [x]).set l.length y = l ++ [y] := by
  simp

theorem getLeaveAndTakeHalt_some {b : ExecIrBuilder} {leave : Block}
    (h : b.leaveAndTakeHalt = some leave) : getLeaveAndTakeHalt b = .ok (leave, b) := by
  refine builder_bind (a := b) (c := b) rfl ?_
  simp only [h]
  rfl

theorem getLeaveAndTakeHalt_none {b : ExecIrBuilder} (h : b.leaveAndTakeHalt = none)
    (hne : 0 < b.blocks.length) :
    getLeaveAndTakeHalt b = .ok (b.blocks.length, withLeaveBlock b) := by
  have hentry : ¬ b.blocks.length = Block.ENTRYPOINT := Nat.pos_iff_ne_zero.1 hne
  have hlast : ∀ d : BlockData, (b.blocks ++ [d])[b.blocks.length]? = some d := by simp
  have hmark : markCurrentBlockCold { b with
      blocks := b.blocks ++ [BlockData.empty], currentBlock := b.blocks.length } =
      .ok ((), { b with
        blocks := b.blocks ++ [{ BlockData.empty with isCold := true }]
        currentBlock := b.blocks.length }) := by
    unfold markCurrentBlockCold markBlockBold
    rw [if_neg hentry]
    refine bind_eq_ok.2 ⟨BlockData.empty, arenaGet_eq_ok.2 (hlast _), ?_⟩
    rw [set_append_length]
    rfl
  have hemit := emit1RetStmt_eq (r := .takeHaltReason) (t := .int .w32)
    (b := { b with
      blocks := b.blocks ++ [{ BlockData.empty with isCold := true }]
      currentBlock := b.blocks.length }) rfl (hlast _)
  simp only [pushStmt, set_append_length] at hemit
  have hterm : terminate (.returnCode b.ssaValues.length) { b with
      ssaValues := b.ssaValues ++ [.int .w32]
      stmts := b.stmts ++ [⟨[b.ssaValues.length], .takeHaltReason⟩]
      blocks := b.blocks ++ [{ BlockData.empty with isCold := true, stmts := [b.stmts.length] }]
      currentBlock := b.blocks.length } = .ok ((), { withLeaveBlock b with
      currentBlock := b.blocks.length, leaveAndTakeHalt := b.leaveAndTakeHalt }) := by
    unfold terminate
    rw [terminateBlock_eq (u := .returnCode b.ssaValues.length) ?_ ?_ (hlast _) rfl,
      set_append_length]
    · rfl
    · exact bind_eq_ok.2 ⟨.int .w32, arenaGet_eq_ok.2 (by simp), rfl⟩
    · simp [Terminator.blockTargets, Terminator.targets]
  have hscope : blockScope b.blocks.length (do
      markCurrentBlockCold
      let finalHaltReason ← emit1RetStmt .takeHaltReason
      terminate (.returnCode finalHaltReason)) { b with blocks := b.blocks ++ [BlockData.empty] } =
      .ok ((), { withLeaveBlock b with leaveAndTakeHalt := b.leaveAndTakeHalt }) := by
    have hbody := builder_bind (f := fun reason => terminate (.returnCode reason)) hemit hterm
    have hboth := builder_bind (f := fun _ => emit1RetStmt .takeHaltReason >>= fun reason =>
      terminate (.returnCode reason)) hmark hbody
    exact blockScope_eq (b := { b with blocks := b.blocks ++ [BlockData.empty] }) hboth
  refine builder_bind (a := b) (c := b) rfl ?_
  simp only [h]
  refine builder_bind (a := b.blocks.length) rfl (builder_bind hscope ?_)
  refine builder_bind (a := { withLeaveBlock b with leaveAndTakeHalt := b.leaveAndTakeHalt }) rfl ?_
  exact builder_bind (a := ()) (builder_lift (require_eq_ok.2 h)) rfl

/-! ## The split -/

/-- The builder after a halt check was inserted, once the block to leave by exists. -/
theorem insertHaltCheckAt_eq {b b₁ : ExecIrBuilder} {block : Block} {data : BlockData} {i : ℕ}
    {stmt : Stmt} {leave : Block} (hdata : b.blocks[block]? = some data)
    (hstmt : data.stmts[i]? = some stmt) (hsafe : b.isSafepoint stmt = true)
    (hleave : getLeaveAndTakeHalt (b.splitOff block data (i + 1)) = .ok (leave, b₁))
    (hfirst : b₁.blocks[block]? =
      some { data with stmts := data.stmts.take (i + 1), terminator := .ret })
    (hentry : 0 < b.blocks.length) (hne : b.blocks.length ≠ leave) (hpos : leave ≠ 0) :
    insertHaltCheckAt block (i + 1) b = .ok (b.blocks.length, { b₁ with
      ssaValues := b₁.ssaValues ++ [.int .w32]
      stmts := b₁.stmts ++ [⟨[b₁.ssaValues.length], .loadHaltReason⟩]
      blocks := b₁.blocks.set block { data with
        stmts := data.stmts.take (i + 1) ++ [b₁.stmts.length]
        terminator := .brZ b₁.ssaValues.length ⟨b.blocks.length, []⟩ ⟨leave, []⟩
        terminated := true } }) := by
  have hafter : b.isAfterSafepoint data (i + 1) = .ok true := by
    unfold isSafepoint at hsafe
    cases hget : b.stmts[stmt]? with
    | none => simp [hget] at hsafe
    | some d =>
      rw [hget] at hsafe
      refine bind_eq_ok.2 ⟨stmt, arenaGet_eq_ok.2 hstmt,
        bind_eq_ok.2 ⟨d, arenaGet_eq_ok.2 hget, ?_⟩⟩
      exact congrArg Except.ok hsafe
  have hblock : ∀ d : BlockData, (b₁.blocks.set block d)[block]? = some d := fun d =>
    List.getElem?_set_self (List.getElem?_eq_some_iff.1 hfirst).1
  have hemit := emit1RetStmt_eq (r := .loadHaltReason) (t := .int .w32)
    (b := { b₁ with currentBlock := block }) rfl hfirst
  simp only [pushStmt] at hemit
  have hscope := blockScope_eq (b := b₁) hemit
  have hopen := unterminate_eq (b := { b₁ with
    ssaValues := b₁.ssaValues ++ [.int .w32]
    stmts := b₁.stmts ++ [⟨[b₁.ssaValues.length], .loadHaltReason⟩]
    blocks := b₁.blocks.set block { data with
      stmts := data.stmts.take (i + 1) ++ [b₁.stmts.length], terminator := .ret } }) (hblock _)
  simp only [List.set_set] at hopen
  have hterm := terminateBlock_eq
    (t := .brZ b₁.ssaValues.length ⟨b.blocks.length, []⟩ ⟨leave, []⟩)
    (u := .brZ b₁.ssaValues.length ⟨b.blocks.length, []⟩ ⟨leave, []⟩) (b := { b₁ with
    ssaValues := b₁.ssaValues ++ [.int .w32]
    stmts := b₁.stmts ++ [⟨[b₁.ssaValues.length], .loadHaltReason⟩]
    blocks := b₁.blocks.set block { data with
      stmts := data.stmts.take (i + 1) ++ [b₁.stmts.length], terminator :=
        .ret, terminated := false } })
    (by
      refine bind_eq_ok.2 ⟨.int .w32, arenaGet_eq_ok.2 (by simp), ?_⟩
      have hjump : (⟨b.blocks.length, []⟩ : Jump) ≠ ⟨leave, []⟩ := fun h => hne (Jump.mk.inj h).1
      simp only [if_neg hjump]
      rfl)
    (by
      simp [Terminator.mem_blockTargets, Terminator.targets, Block.ENTRYPOINT, hpos,
        Nat.pos_iff_ne_zero.1 hentry])
    (hblock _) rfl
  simp only [List.set_set] at hterm
  refine builder_bind (a := b) (c := b) rfl ?_
  refine builder_bind (builder_lift (arenaGet_eq_ok.2 hdata)) ?_
  refine builder_bind (builder_lift hafter) ?_
  refine builder_bind (a := ()) (builder_lift (require_eq_ok.2 rfl)) ?_
  refine builder_bind (a := ()) (c := b.splitOff block data (i + 1)) rfl ?_
  exact builder_bind hleave (builder_bind hscope (builder_bind hopen (builder_bind hterm rfl)))

theorem isSafepoint_append {stmts : List StmtData} {ir : ExecIrBuilder} {d : StmtData}
    (hd : d.rvalue ≠ .safepoint) (h : ir.stmts = stmts ++ [d]) {s : Stmt}
    (hs : ir.isSafepoint s = true) : s < stmts.length := by
  unfold isSafepoint at hs
  rw [h] at hs
  by_contra hge
  rw [List.getElem?_append_right (Nat.le_of_not_lt hge)] at hs
  cases hk : s - stmts.length with
  | zero => simp [hk, hd] at hs
  | succ k => simp [hk] at hs

/-- A halt check can be inserted after every safepoint. -/
theorem insertHaltCheckAt_spec {ir : ExecIrBuilder} {block : Block} {data : BlockData} {i : ℕ}
    {stmt : Stmt} (hdata : ir.blocks[block]? = some data) (hstmt : data.stmts[i]? = some stmt)
    (hsafe : ir.isSafepoint stmt = true)
    (hleave : ∀ l, ir.leaveAndTakeHalt = some l → l ≠ 0 ∧ l < ir.blocks.length) :
    ∃ ir' leave load reason, insertHaltCheckAt block (i + 1) ir = .ok (ir.blocks.length, ir') ∧
      Split ir ir' block data i leave load reason := by
  have hlt : block < ir.blocks.length := (List.getElem?_eq_some_iff.1 hdata).1
  have hpos : 0 < ir.blocks.length := Nat.zero_lt_of_lt hlt
  have hlen : (ir.splitOff block data (i + 1)).blocks.length = ir.blocks.length + 1 := by
    simp [splitOff]
  have hfirst : (ir.splitOff block data (i + 1)).blocks[block]? =
      some { data with stmts := data.stmts.take (i + 1), terminator := .ret } := by
    simp only [splitOff]
    rw [List.getElem?_append_left (by simpa using hlt), List.getElem?_set_self hlt]
  have hothers : ∀ b < ir.blocks.length, b ≠ block →
      (ir.splitOff block data (i + 1)).blocks[b]? = ir.blocks[b]? := by
    intro b hb hne
    simp only [splitOff]
    rw [List.getElem?_append_left (by simpa using hb), List.getElem?_set_ne (Ne.symm hne)]
  have hcont : (ir.splitOff block data (i + 1)).blocks[ir.blocks.length]? = some {
      parameters := []
      stmts := data.stmts.drop (i + 1)
      terminated := data.terminated
      terminator := data.terminator
      isCold := data.isCold } := by
    simp [splitOff]
  cases hold : ir.leaveAndTakeHalt with
  | some leave =>
    obtain ⟨hne, hlv⟩ := hleave leave hold
    have hget : getLeaveAndTakeHalt (ir.splitOff block data (i + 1)) =
        .ok (leave, ir.splitOff block data (i + 1)) := getLeaveAndTakeHalt_some hold
    have hrun := insertHaltCheckAt_eq hdata hstmt hsafe hget hfirst hpos (Nat.ne_of_gt hlv) hne
    refine ⟨_, leave, ir.stmts.length, ir.ssaValues.length, hrun, ?_⟩
    refine ⟨hdata, ?_, ?_, ?_, ?_, ?_, ?_, ?_, ?_, ?_, ?_, ?_, hold, .inl hold, rfl⟩
    · exact List.getElem?_set_self (by rw [hlen]; exact Nat.lt_succ_of_lt hlt)
    · rw [List.getElem?_set_ne (Nat.ne_of_lt hlt)]
      exact hcont
    · intro b hb hne
      rw [List.getElem?_set_ne (Ne.symm hne)]
      exact hothers b hb hne
    · intro b hb
      rw [List.length_set, hlen] at hb
      exact .inl (Nat.le_of_lt_succ hb)
    · rw [List.length_set, hlen]
      exact Nat.lt_succ_self _
    · exact List.prefix_append _ _
    · intro s hs
      by_contra hsp
      rw [Bool.not_eq_false] at hsp
      exact absurd (isSafepoint_append (by simp) rfl hsp) (Nat.not_lt.2 hs)
    · exact le_refl _
    · simp [splitOff]
    · exact List.prefix_append _ _
    · exact le_refl _
  | none =>
    have hget : getLeaveAndTakeHalt (ir.splitOff block data (i + 1)) =
        .ok (ir.blocks.length + 1, withLeaveBlock (ir.splitOff block data (i + 1))) := by
      have hrun := getLeaveAndTakeHalt_none (b := ir.splitOff block data (i + 1)) hold
        (by rw [hlen]; exact Nat.succ_pos _)
      rwa [hlen] at hrun
    have happ : ∀ b ≤ ir.blocks.length,
        (withLeaveBlock (ir.splitOff block data (i + 1))).blocks[b]? =
        (ir.splitOff block data (i + 1)).blocks[b]? := by
      intro b hb
      simp only [withLeaveBlock]
      exact List.getElem?_append_left (by rw [hlen]; exact Nat.lt_succ_of_le hb)
    have hlen' : (withLeaveBlock (ir.splitOff block data (i + 1))).blocks.length =
        ir.blocks.length + 2 := by
      simp [withLeaveBlock, hlen]
    have hrun := insertHaltCheckAt_eq hdata hstmt hsafe hget ((happ _ (le_of_lt hlt)).trans hfirst)
      hpos (Nat.ne_of_lt (Nat.lt_succ_self _)) (Nat.succ_ne_zero _)
    refine ⟨_, ir.blocks.length + 1, (withLeaveBlock (ir.splitOff block data (i + 1))).stmts.length,
      (withLeaveBlock (ir.splitOff block data (i + 1))).ssaValues.length, hrun, ?_⟩
    refine ⟨hdata, ?_, ?_, ?_, ?_, ?_, ?_, ?_, ?_, ?_, ?_, ?_, ?_, .inr ⟨hold, ?_, ?_⟩, rfl⟩
    · exact List.getElem?_set_self (by rw [hlen']; lia)
    · rw [List.getElem?_set_ne (Nat.ne_of_lt hlt), happ _ (le_refl _)]
      exact hcont
    · intro b hb hne
      rw [List.getElem?_set_ne (Ne.symm hne), happ b (le_of_lt hb)]
      exact hothers b hb hne
    · intro b hb
      rw [List.length_set, hlen'] at hb
      lia
    · rw [List.length_set, hlen']
      lia
    · simp only [withLeaveBlock, List.append_assoc]
      exact List.prefix_append _ _
    · intro s hs
      by_contra hsp
      rw [Bool.not_eq_false] at hsp
      have hlt₁ := isSafepoint_append (by simp) rfl hsp
      have hsp' : (withLeaveBlock (ir.splitOff block data (i + 1))).isSafepoint s = true := by
        unfold isSafepoint at hsp ⊢
        rwa [List.getElem?_append_left hlt₁] at hsp
      exact absurd (isSafepoint_append (by simp) rfl hsp') (Nat.not_lt.2 hs)
    · simp [withLeaveBlock, splitOff]
    · simp
    · simp only [withLeaveBlock, List.append_assoc]
      exact List.prefix_append _ _
    · simp [withLeaveBlock, splitOff]
    · simp [withLeaveBlock, hlen]
    · exact Nat.lt_succ_self _
    · refine ⟨ir.stmts.length, ir.ssaValues.length, ⟨⟨{
        parameters := []
        stmts := [ir.stmts.length]
        terminated := true
        terminator := .returnCode ir.ssaValues.length
        isCold := true }, ?_, rfl, rfl, rfl⟩, ?_⟩, le_refl _, le_refl _⟩
      · rw [List.getElem?_set_ne (by lia)]
        simp only [withLeaveBlock]
        rw [List.getElem?_append_right (by rw [hlen])]
        simp [splitOff]
      · simp [withLeaveBlock, splitOff]

theorem Split.parameters {ir ir' : ExecIrBuilder} {block : Block} {data : BlockData} {i : ℕ}
    {leave : Block} {load : Stmt} {reason : SSAValue}
    (h : Split ir ir' block data i leave load reason) {b : Block} {d : BlockData}
    (hd : ir.blocks[b]? = some d) :
    ∃ d', ir'.blocks[b]? = some d' ∧ d'.parameters = d.parameters := by
  by_cases hb : b = block
  · subst hb
    obtain rfl : d = data := Option.some.inj (hd.symm.trans h.get)
    exact ⟨_, h.first, rfl⟩
  · exact ⟨d, (h.others b (List.getElem?_eq_some_iff.1 hd).1 hb).trans hd, rfl⟩

theorem Split.leave_of {ir ir' : ExecIrBuilder} {block : Block} {data : BlockData} {i : ℕ}
    {leave : Block} {load : Stmt} {reason : SSAValue}
    (h : Split ir ir' block data i leave load reason) {l : Block}
    (hl : ir.leaveAndTakeHalt = some l) : ir'.leaveAndTakeHalt = some l := by
  rcases h.leave_old with hold | ⟨hnone, -⟩
  · rw [h.leave_eq, ← hold, hl]
  · rw [hnone] at hl
    cases hl

end RapidArm.Ir
