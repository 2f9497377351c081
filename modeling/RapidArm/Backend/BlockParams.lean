import RapidArm.Ir.Semantics
import RapidArm.Lib.Assign

/-!
# Block parameters in the two backends

A jump passes one value for each parameter of its target block. Cranelift's block
arguments are bound at once (`clif_jump`, `compiler/cranelift_backend.rs`, lines
168–177). The GCC backend keeps every value in a local variable and emits one
assignment after the other in the jumping block (`emit_jump`,
`compiler/gcc_backend.rs`, lines 1097–1115), so an argument that is itself a
parameter of the target may already have been overwritten.

Results:
* `gccRun_eq_clifRun`: a function whose jumps overwrite no argument runs alike in
  both backends.
* `gcc_jumps_simultaneous_iff`: those are exactly the functions whose jumps are
  simultaneous in the GCC code.
-/

namespace RapidArm.Backend

open RapidArm.Ir RapidArm.Lib

/-! ## The two ways to pass arguments -/

/-- The assignments `emit_jump` appends to the jumping block, in order, or an error
    if the numbers of arguments and parameters differ. -/
def emitJump (ir : ExecIrBuilder) (jump : Jump) : Option (List (SSAValue × SSAValue)) :=
  Machine.jumpCopies ir jump

/-- The GCC code executes the assignments one after the other. -/
def gccCopy (α : Type) : Copy α := seqAssign

/-- Cranelift binds the parameters of a block at once. -/
def clifCopy (α : Type) : Copy α := parAssign

/-- A run of the function as the GCC backend compiles it. -/
def gccRun (M : Machine) (ir : ExecIrBuilder) (halts : ℕ → BitVec 32) (fuel : ℕ) (c : Config M) :
    List (Event M) × Machine.Outcome M :=
  M.run ir (gccCopy M.Val) halts fuel c

/-- A run of the function as the Cranelift backend compiles it. -/
def clifRun (M : Machine) (ir : ExecIrBuilder) (halts : ℕ → BitVec 32) (fuel : ℕ) (c : Config M) :
    List (Event M) × Machine.Outcome M :=
  M.run ir (clifCopy M.Val) halts fuel c

/-- The two backends. -/
inductive JitBackend
  | gcc
  | cranelift
  deriving DecidableEq, Repr

/-- How a backend passes the arguments of a jump. -/
def JitBackend.copy (backend : JitBackend) (α : Type) : Copy α :=
  match backend with
  | .gcc => gccCopy α
  | .cranelift => clifCopy α

theorem JitBackend.copy_nil (backend : JitBackend) {α : Type} (ρ : SSAValue → α) :
    backend.copy α [] ρ = ρ := by
  cases backend <;> rfl

theorem JitBackend.copy_eqOn (backend : JitBackend) {α : Type} {copies : List (SSAValue × SSAValue)}
    {s : Set SSAValue} (hs : ∀ c ∈ copies, c.2 ∈ s) {ρ ρ' : SSAValue → α} (h : Set.EqOn ρ ρ' s) :
    Set.EqOn (backend.copy α copies ρ) (backend.copy α copies ρ') s := by
  cases backend with
  | gcc => exact seqAssign_eqOn hs h
  | cranelift => exact parAssign_eqOn hs h

/-- A jump without arguments to a block without parameters. -/
theorem takeJump_nil (M : Machine) {ir : ExecIrBuilder} {c : Config M} {e : Event M}
    (backend : JitBackend) {target : Block} {data : BlockData}
    (hdata : ir.blocks[target]? = some data) (hparams : data.parameters = []) :
    M.takeJump ir (backend.copy M.Val) c e ⟨target, []⟩ =
      .step e { c with block := target, pc := 0 } := by
  have hcopies : Machine.jumpCopies ir ⟨target, []⟩ = some [] := by
    unfold Machine.jumpCopies
    simp only [hdata, hparams]
    rfl
  unfold Machine.takeJump
  rw [hcopies]
  simp only [backend.copy_nil]

/-- The jumps of a function. -/
def jumps (ir : ExecIrBuilder) : List Jump := ir.blocks.flatMap fun data => data.terminator.targets

/-- The parameters of every block are distinct: each is a new value. -/
def DistinctParameters (ir : ExecIrBuilder) : Prop :=
  ∀ data ∈ ir.blocks, data.parameters.Nodup

theorem Built.distinctParameters {b : ExecIrBuilder} (h : Built b) : DistinctParameters b :=
  fun data hdata => (h.wf.blocks data hdata).parameters_nodup

/-- After the assignments of `jump`, each parameter of its target holds the value
    its argument had before the jump, whatever the values are. -/
def Simultaneous (ir : ExecIrBuilder) (jump : Jump) : Prop :=
  ∀ copies, emitJump ir jump = some copies →
    ∀ (α : Type) (ρ : SSAValue → α), ∀ c ∈ copies, gccCopy α copies ρ c.1 = ρ c.2

/-- No argument of `jump` is a parameter of its target that an earlier argument,
    other than this parameter itself, was passed for. -/
def KeepsArguments (ir : ExecIrBuilder) (jump : Jump) : Prop :=
  ∀ copies, emitJump ir jump = some copies → NoOverwrite copies

instance (ir : ExecIrBuilder) (jump : Jump) : Decidable (KeepsArguments ir jump) :=
  match h : emitJump ir jump with
  | none => isTrue (by intro copies hc; rw [h] at hc; cases hc)
  | some copies =>
    decidable_of_iff (NoOverwrite copies)
      ⟨by intro hn c hc; rw [h] at hc; cases hc; exact hn, fun hk => hk copies h⟩

/-! ## Jumps that overwrite no argument -/

/-- The destinations of a jump are the parameters of its target. -/
theorem emitJump_nodup {ir : ExecIrBuilder} (hd : DistinctParameters ir) {jump : Jump}
    {copies : List (SSAValue × SSAValue)} (h : emitJump ir jump = some copies) :
    (copies.map Prod.fst).Nodup := by
  unfold emitJump Machine.jumpCopies at h
  split at h
  · cases h
  · rename_i target htarget
    split_ifs at h with hlen
    obtain rfl := Option.some.inj h
    rw [List.map_fst_zip (le_of_eq hlen.symm)]
    exact hd target (List.mem_of_getElem? htarget)

theorem simultaneous_iff {ir : ExecIrBuilder} (hd : DistinctParameters ir) (jump : Jump) :
    Simultaneous ir jump ↔ KeepsArguments ir jump := by
  constructor
  · intro h copies hc
    exact (forall_seqAssign_iff (α := Bool) (emitJump_nodup hd hc)).1 (h copies hc Bool)
  · intro h copies hc α ρ c hmem
    exact seqAssign_of_mem (emitJump_nodup hd hc) (h copies hc) hmem ρ

/-- A jump that keeps its arguments goes to the same state in both backends. -/
theorem takeJump_eq {ir : ExecIrBuilder} (hd : DistinctParameters ir) (M : Machine) (c : Config M)
    (event : Event M) {jump : Jump} (h : KeepsArguments ir jump) :
    M.takeJump ir (gccCopy M.Val) c event jump = M.takeJump ir (clifCopy M.Val) c event jump := by
  unfold Machine.takeJump
  cases hc : Machine.jumpCopies ir jump with
  | none => rfl
  | some copies =>
    have hsame := seqAssign_eq_parAssign (emitJump_nodup hd hc) (h copies hc) c.env
    simp only [gccCopy, clifCopy, hsame]

theorem next_eq {ir : ExecIrBuilder} (hd : DistinctParameters ir)
    (h : ∀ jump ∈ jumps ir, KeepsArguments ir jump) (M : Machine) (halts : ℕ → BitVec 32)
    (c : Config M) :
    M.next ir (gccCopy M.Val) halts c = M.next ir (clifCopy M.Val) halts c := by
  unfold Machine.next
  cases hdata : ir.blocks[c.block]? with
  | none => rfl
  | some data =>
    simp only
    cases data.stmts[c.pc]? with
    | some stmt => rfl
    | none =>
      have hjump : ∀ jump ∈ data.terminator.targets, KeepsArguments ir jump := fun jump hj =>
        h jump (List.mem_flatMap.2 ⟨data, List.mem_of_getElem? hdata, hj⟩)
      simp only [Machine.nextTerm]
      cases hterm : data.terminator with
      | ret | returnCode => rfl
      | br jump => exact takeJump_eq hd M c _ (hjump jump (by simp [hterm, Terminator.targets]))
      | brZ cond zero nonZero =>
        refine takeJump_eq hd M c _ (hjump _ ?_)
        split_ifs <;> simp [hterm, Terminator.targets]

/-- A function whose jumps keep their arguments runs alike in both backends. -/
theorem gccRun_eq_clifRun {ir : ExecIrBuilder} (hd : DistinctParameters ir)
    (h : ∀ jump ∈ jumps ir, KeepsArguments ir jump) (M : Machine) (halts : ℕ → BitVec 32)
    (fuel : ℕ) (c : Config M) : gccRun M ir halts fuel c = clifRun M ir halts fuel c := by
  induction fuel generalizing c with
  | zero => rfl
  | succ fuel ih =>
    simp only [gccRun, clifRun, Machine.run, next_eq hd h] at ih ⊢
    cases M.next ir (clifCopy M.Val) halts c with
    | step event c' => simp only [ih]
    | done event => rfl
    | stuck => rfl

/-! ## Exactly these jumps are simultaneous -/

/-- Every jump of the GCC code is simultaneous, and the GCC code runs like the
    Cranelift code, exactly when every jump keeps its arguments. -/
theorem gcc_jumps_simultaneous_iff {ir : ExecIrBuilder} (hd : DistinctParameters ir) :
    ((∀ jump ∈ jumps ir, Simultaneous ir jump) ∧
      ∀ (M : Machine) (halts : ℕ → BitVec 32) (fuel : ℕ) (c : Config M),
        gccRun M ir halts fuel c = clifRun M ir halts fuel c) ↔
    ∀ jump ∈ jumps ir, KeepsArguments ir jump := by
  constructor
  · rintro ⟨hsim, -⟩ jump hj
    exact (simultaneous_iff hd jump).1 (hsim jump hj)
  · intro h
    refine ⟨fun jump hj => (simultaneous_iff hd jump).2 (h jump hj), ?_⟩
    exact fun M halts fuel c => gccRun_eq_clifRun hd h M halts fuel c

/-- A loop over two counters: the entry starts block 1, which has the parameters 8
    and 9, with two constants, and block 1 jumps back to itself with `back`. -/
def loopWith (back : List SSAValue) : ExecIrBuilder :=
  { ExecIrBuilder.withConfig ⟨1, by decide, by decide⟩ with
    ssaValues := (ExecIrBuilder.withConfig ⟨1, by decide, by decide⟩).ssaValues ++
      [.int .w64, .int .w64, .int .w64, .int .w64]
    stmts := [⟨[6], .iconst (.u64 0)⟩, ⟨[7], .iconst (.u64 1)⟩, ⟨[], .safepoint⟩]
    blocks := [
      { parameters := Arg.args.map Arg.asSSAValue, stmts := [0, 1], terminated := true,
        terminator := .br ⟨1, [6, 7]⟩, isCold := false },
      { parameters := [8, 9], stmts := [2], terminated := true,
        terminator := .br ⟨1, back⟩, isCold := false }]
    currentBlock := 1 }

/-- The loop is what the builder returns for these calls. -/
theorem loopWith_built {back : List SSAValue} (h : ∀ v ∈ back, v < 10) :
    Built (loopWith back) := by
  have hback : ∀ j ∈ (Terminator.br ⟨1, back⟩).targets, j.target < 2 := by
    intro j hj
    obtain rfl := List.mem_singleton.1 hj
    exact Nat.one_lt_two
  refine .call (.call (.call (.call (.call (.call (.call (.call (.call
    (.withConfig ⟨1, by decide, by decide⟩)
    (.emitStmtFull 1 (.iconst (.u64 0)) ?_ ?_ ?_ rfl))
    (.emitStmtFull 1 (.iconst (.u64 1)) ?_ ?_ ?_ rfl))
    (.createBlock rfl))
    (.addBlockParameterAt 1 (.int .w64) rfl))
    (.addBlockParameterAt 1 (.int .w64) rfl))
    (.terminateBlock 0 (.br ⟨1, [6, 7]⟩) ?_ ?_ rfl))
    (.switchTo 1 ?_ rfl))
    (.emitStmtFull 0 .safepoint ?_ ?_ ?_ rfl))
    (.terminateBlock 1 (.br ⟨1, back⟩) hback h rfl)
  all_goals decide

theorem gcc_jumps_simultaneous_keep :
    (∀ jump ∈ jumps (loopWith [8, 9]), Simultaneous (loopWith [8, 9]) jump) ∧
      ∀ (M : Machine) (halts : ℕ → BitVec 32) (fuel : ℕ) (c : Config M),
        gccRun M (loopWith [8, 9]) halts fuel c = clifRun M (loopWith [8, 9]) halts fuel c :=
  (gcc_jumps_simultaneous_iff (Built.distinctParameters (loopWith_built (by decide)))).2
    (by decide)

/-- A back edge that swaps the two counters loses the first one. -/
theorem swap_not_simultaneous :
    Built (loopWith [9, 8]) ∧
      ¬ ∀ jump ∈ jumps (loopWith [9, 8]), Simultaneous (loopWith [9, 8]) jump := by
  refine ⟨loopWith_built (by decide), fun h => ?_⟩
  have hmem : (⟨1, [9, 8]⟩ : Jump) ∈ jumps (loopWith [9, 8]) := by decide
  have hlost := h _ hmem [(8, 9), (9, 8)] (by decide) ℕ id (9, 8) (by decide)
  revert hlost
  decide

end RapidArm.Backend
