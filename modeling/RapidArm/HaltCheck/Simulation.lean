import RapidArm.Backend.BlockParams
import RapidArm.HaltCheck.Refines

/-!
# Runs of a function with halt checks

How a function with halt checks runs, compared with the function it was made from. Both
start alike and stay related (`Related`): in the same original block at the same original
statement, with the same original values and the same world.

Results:
* `next_cases`: from related states, both functions take the same step, or both execute a
  safepoint and the halt check after it.
* `run_same`, `run_reaches`: as long as the halt checks read zero, the two functions run
  alike.
* `run_halted`: once a halt check reads a halt reason, nothing but taking and returning it
  follows.
-/

namespace RapidArm.HaltCheck

open RapidArm.Ir RapidArm.Lib RapidArm.Backend

/-! ## Machines and backends -/

/-- A machine whose halt reasons are those of the program: `BrZ` on a halt reason tests
    whether it is zero, and taking the halt reason returns one value. -/
structure HaltMachine extends Machine where
  isZero_haltReason : ∀ r, isZero (haltReason r) = true ↔ r = 0
  take_haltReason : ∀ w, ∃ r w', eval .takeHaltReason [] w = some ([r], w')

/-! ## Events -/

section Events

variable {M : Machine}

/-- The event is of a statement or a terminator of the original function: it names no
    statement and no value that was added. -/
def isOriginal (ir : ExecIrBuilder) : Event M → Bool
  | .stmt s _ => decide (s < ir.stmts.length)
  | .term t _ => t.operands.all fun v => decide (v < ir.ssaValues.length)

/-- The event is a read of the halt reason. -/
def isLoad (ir : ExecIrBuilder) : Event M → Bool
  | .stmt s _ =>
    match ir.stmts[s]? with
    | some data => data.rvalue == .loadHaltReason
    | none => false
  | .term .. => false

/-- How often the halt reason was read. -/
def loads (ir : ExecIrBuilder) (events : List (Event M)) : ℕ := events.countP (isLoad ir)

/-- Every read of the halt reason returned zero. -/
def ReadsZero (ir : ExecIrBuilder) (halts : ℕ → BitVec 32) (events : List (Event M)) : Prop :=
  ∀ i < loads ir events, halts i = 0

/-- Two runs got equally far: both returned, both are stuck, or both are still running, in
    the same world. -/
inductive Alike : Machine.Outcome M → Machine.Outcome M → Prop
  | running {c₀ c : Config M} (world : c₀.world = c.world) : Alike (.running c₀) (.running c)
  | returned : Alike .returned .returned
  | stuck : Alike .stuck .stuck

/-- A run `r` of a function with halt checks does what the run `r₀` of the original `ir`
    does: the same original events, and it got equally far. -/
structure SameRun (ir : ExecIrBuilder) (r₀ r : List (Event M) × Machine.Outcome M) : Prop where
  events : r.1.filter (isOriginal ir) = r₀.1
  outcome : Alike r₀.2 r.2

theorem SameRun.cons {ir : ExecIrBuilder} {r₀ r : List (Event M) × Machine.Outcome M} {e : Event M}
    (h : SameRun ir r₀ r) (he : isOriginal ir e = true) :
    SameRun ir (e :: r₀.1, r₀.2) (e :: r.1, r.2) :=
  ⟨by rw [List.filter_cons_of_pos he, h.events], h.outcome⟩

/-- An added event does not count. -/
theorem SameRun.cons_added {ir : ExecIrBuilder} {r₀ r : List (Event M) × Machine.Outcome M}
    {e : Event M} (h : SameRun ir r₀ r) (he : isOriginal ir e = false) :
    SameRun ir r₀ (e :: r.1, r.2) :=
  ⟨by rw [List.filter_cons_of_neg (by simp [he])]; exact h.events, h.outcome⟩

theorem loads_cons_false {ir : ExecIrBuilder} {e : Event M} (h : isLoad ir e = false)
    (events : List (Event M)) : loads ir (e :: events) = loads ir events :=
  List.countP_cons_of_neg (by simp [h])

theorem loads_cons_true {ir : ExecIrBuilder} {e : Event M} (h : isLoad ir e = true)
    (events : List (Event M)) : loads ir (e :: events) = loads ir events + 1 :=
  List.countP_cons_of_pos h

/-- Reads of a run whose first event is none. -/
theorem readsZero_cons_false {ir : ExecIrBuilder} {halts : ℕ → BitVec 32} {e : Event M}
    (h : isLoad ir e = false) {events : List (Event M)} :
    ReadsZero ir halts (e :: events) ↔ ReadsZero ir halts events := by
  unfold ReadsZero
  rw [loads_cons_false h]

/-- Reads of a run that starts with one. -/
theorem readsZero_cons_true {ir : ExecIrBuilder} {halts : ℕ → BitVec 32} {e : Event M}
    (h : isLoad ir e = true) {events : List (Event M)} :
    ReadsZero ir halts (e :: events) ↔
      halts 0 = 0 ∧ ReadsZero ir (fun i => halts (i + 1)) events := by
  unfold ReadsZero
  rw [loads_cons_true h]
  constructor
  · intro hz
    exact ⟨hz 0 (Nat.succ_pos _), fun i hi => hz (i + 1) (Nat.succ_lt_succ hi)⟩
  · rintro ⟨hfirst, hz⟩ i hi
    cases i with
    | zero => exact hfirst
    | succ i => exact hz i (Nat.lt_of_succ_lt_succ hi)

theorem readsZero_nil {ir : ExecIrBuilder} {halts : ℕ → BitVec 32} :
    ReadsZero ir halts ([] : List (Event M)) := by
  intro i hi
  cases hi

end Events

/-! ## One step of a run -/

section Run

variable (M : Machine) {ir : ExecIrBuilder} {copy : Copy M.Val} {halts : ℕ → BitVec 32}
  {c c' : Config M} {e : Event M}

theorem run_step (h : M.next ir copy halts c = .step e c') (n : ℕ) :
    M.run ir copy halts (n + 1) c =
      (e :: (M.run ir copy halts n c').1, (M.run ir copy halts n c').2) := by
  rw [Machine.run, h]

theorem run_done (h : M.next ir copy halts c = .done e) (n : ℕ) :
    M.run ir copy halts (n + 1) c = ([e], .returned) := by
  rw [Machine.run, h]

theorem run_stuck (h : M.next ir copy halts c = .stuck) (n : ℕ) :
    M.run ir copy halts (n + 1) c = ([], .stuck) := by
  rw [Machine.run, h]

/-- Statements keep the agreement of values. -/
theorem define_eqOn {ρ ρ' : SSAValue → M.Val} {s : Set SSAValue} (h : Set.EqOn ρ ρ' s)
    (outputs : List SSAValue) (vals : List M.Val) :
    Set.EqOn (M.define ρ outputs vals) (M.define ρ' outputs vals) s := by
  unfold Machine.define
  generalize outputs.zip vals = pairs
  induction pairs generalizing ρ ρ' with
  | nil => exact h
  | cons p pairs ih =>
    rw [List.foldl_cons, List.foldl_cons]
    refine ih fun v hv => ?_
    by_cases hvp : v = p.1
    · rw [hvp, Function.update_self, Function.update_self]
    · rw [Function.update_of_ne hvp, Function.update_of_ne hvp]
      exact h hv

end Run

/-! ## Places -/

section Places

variable {ir ir' : ExecIrBuilder} {marked : Finset Stmt} {b e : Block} {done todo : List Stmt}
  {x : Stmt}

/-- After its last statement a block is at the end of its last part. -/
theorem Covers.at_end (h : Covers ir ir' marked b done e) (hdone : ∀ y ∈ done, y ∉ marked) :
    b = e ∧ ∃ data, ir'.blocks[b]? = some data ∧ data.stmts = done := by
  cases h with
  | last get stmts unmarked => exact ⟨rfl, _, get, stmts⟩
  | check get stmts unmarked mark load_new load_data reason_new terminator leave_eq next_get
      parameters covers split =>
    rw [split] at hdone
    exact (hdone _ (by simp) mark).elim

/-- The next statement of a part, if no halt check was inserted after it. -/
theorem Covers.at_stmt (h : Covers ir ir' marked b (done ++ x :: todo) e)
    (hdone : ∀ y ∈ done, y ∉ marked) (hx : x ∉ marked) :
    ∃ data, ir'.blocks[b]? = some data ∧ data.stmts[done.length]? = some x := by
  cases h with
  | last get stmts unmarked =>
    refine ⟨_, get, ?_⟩
    rw [stmts]
    simp
  | check get stmts unmarked mark load_new load_data reason_new terminator leave_eq next_get
      parameters covers split =>
    refine ⟨_, get, ?_⟩
    obtain ⟨mid, hseg, htodo⟩ := cut_before (p := fun y => y ∈ marked) split hdone mark
    cases mid with
    | nil =>
      obtain ⟨rfl, -⟩ := List.cons.inj htodo
      exact (hx mark).elim
    | cons y mid =>
      obtain ⟨rfl, -⟩ := List.cons.inj htodo
      rw [stmts, hseg]
      simp

/-- A halt check: the part `b` ends in the safepoint `x`, the load of the halt reason and
    the branch on it, and the block goes on in `next`. -/
structure HaltCheckAt (ir ir' : ExecIrBuilder) (b : Block) (done : List Stmt) (x load : Stmt)
    (reason : SSAValue) (next leave : Block) : Prop where
  block : ∃ data, ir'.blocks[b]? = some data ∧ data.stmts = done ++ [x, load] ∧
    data.terminator = .brZ reason ⟨next, []⟩ ⟨leave, []⟩
  load_new : ir.stmts.length ≤ load
  load_data : ir'.stmts[load]? = some ⟨[reason], .loadHaltReason⟩
  reason_new : ir.ssaValues.length ≤ reason
  next : ∃ data, ir'.blocks[next]? = some data ∧ data.parameters = []
  leave : ir'.leaveAndTakeHalt = some leave

/-- The next statement of a part, if a halt check was inserted after it. -/
theorem Covers.at_check (h : Covers ir ir' marked b (done ++ x :: todo) e)
    (hdone : ∀ y ∈ done, y ∉ marked) (hx : x ∈ marked) :
    ∃ load reason next leave, HaltCheckAt ir ir' b done x load reason next leave ∧
      Covers ir ir' marked next todo e := by
  cases h with
  | last get stmts unmarked => exact (unmarked x (by simp) hx).elim
  | check get stmts unmarked mark load_new load_data reason_new terminator leave_eq next_get
      parameters covers split =>
    obtain ⟨mid, rfl, htodo⟩ := cut_before (p := fun y => y ∈ marked) split hdone mark
    cases mid with
    | nil =>
      obtain ⟨rfl, rfl⟩ := List.cons.inj htodo
      rw [List.append_nil] at stmts
      exact ⟨_, _, _, _, ⟨⟨_, get, stmts, terminator⟩, load_new, load_data, reason_new,
        ⟨_, next_get, parameters⟩, leave_eq⟩, covers⟩
    | cons y mid =>
      obtain ⟨rfl, -⟩ := List.cons.inj htodo
      exact (unmarked x (by simp) hx).elim

end Places

/-! ## The two functions side by side -/

section Simulation

variable {M : HaltMachine} (backend : JitBackend) (halts : ℕ → BitVec 32) {ir ir' : ExecIrBuilder}
  {marked : Finset Stmt} {last : Block → Block} {c₀ c : Config M.toMachine}

/-- The states of the original function and of the one with halt checks correspond: `before`
    was executed in earlier parts of the block, `done` in this one. -/
structure Related (ir ir' : ExecIrBuilder) (marked : Finset Stmt) (last : Block → Block)
    (c₀ c : Config M.toMachine) : Prop where
  block : c₀.block < ir.blocks.length
  place : ∃ before done todo, (ir.blockD c₀.block).stmts = before ++ (done ++ todo) ∧
    c₀.pc = before.length + done.length ∧ c.pc = done.length ∧
    Covers ir ir' marked c.block (done ++ todo) (last c₀.block) ∧ ∀ x ∈ done, x ∉ marked
  env : Set.EqOn c₀.env c.env (Set.Iio ir.ssaValues.length)
  world : c₀.world = c.world

/-- Both functions take the same step; `reads` is how often the one with halt checks has
    read the halt reason. -/
inductive SameNext (ir ir' : ExecIrBuilder) (marked : Finset Stmt) (last : Block → Block)
    (reads : ℕ) :
    Next M.toMachine → Next M.toMachine → Prop
  | step {e : Event M.toMachine} {c₀ c : Config M.toMachine} (original : isOriginal ir e = true)
      (notLoad : isLoad ir' e = false) (related : Related ir ir' marked last c₀ c)
      (reads_eq : c.reads = reads) : SameNext ir ir' marked last reads (.step e c₀) (.step e c)
  | done {e : Event M.toMachine} (original : isOriginal ir e = true)
    (notLoad : isLoad ir' e = false) :
      SameNext ir ir' marked last reads (.done e) (.done e)
  | stuck : SameNext ir ir' marked last reads .stuck .stuck

/-- Original values are read alike. -/
theorem map_eq_of_eqOn {ρ ρ' : SSAValue → M.Val} {n : ℕ} (h : Set.EqOn ρ ρ' (Set.Iio n))
    {l : List SSAValue} (hl : ∀ v ∈ l, v < n) : l.map ρ = l.map ρ' :=
  List.map_congr_left fun v hv => h (hl v hv)

/-- The original statement `x` is next in both functions. -/
theorem nextStmt_same (hwf : WF ir) (href : Refines ir ir' marked last)
    (henv : Set.EqOn c₀.env c.env (Set.Iio ir.ssaValues.length)) (hworld : c₀.world = c.world)
    {x : Stmt} (hx : x < ir.stmts.length) :
    (M.nextStmt ir halts c₀ x = .stuck ∧ M.nextStmt ir' halts c x = .stuck) ∨
      ∃ data vals world, ir.stmts[x]? = some data ∧
        M.nextStmt ir halts c₀ x = .step (.stmt x (data.rvalue.operands.map c.env))
          { c₀ with pc := c₀.pc + 1, env := M.define c₀.env data.outputs vals, world := world } ∧
        M.nextStmt ir' halts c x = .step (.stmt x (data.rvalue.operands.map c.env))
          { c with pc := c.pc + 1, env := M.define c.env data.outputs vals, world := world } := by
  have hget := List.getElem?_eq_getElem hx
  have hdata := hwf.stmts _ (List.mem_of_getElem? hget)
  rw [nextStmt_of_ne M.toMachine hget hdata.not_load,
    nextStmt_of_ne M.toMachine (getElem?_of_isPrefix href.stmts hget) hdata.not_load,
    map_eq_of_eqOn henv hdata.operands_lt, hworld]
  cases M.eval ir.stmts[x].rvalue (ir.stmts[x].rvalue.operands.map c.env) c.world with
  | none => exact .inl ⟨rfl, rfl⟩
  | some r => exact .inr ⟨_, r.1, r.2, hget, rfl, rfl⟩

/-- An original statement is no read of the halt reason. -/
theorem isLoad_original (hwf : WF ir) (href : Refines ir ir' marked last) {x : Stmt}
    (hx : x < ir.stmts.length) (vals : List M.Val) :
    isLoad ir' (.stmt x vals : Event M.toMachine) = false := by
  have hget := List.getElem?_eq_getElem hx
  have hne := (hwf.stmts _ (List.mem_of_getElem? hget)).not_load
  simp only [isLoad, getElem?_of_isPrefix href.stmts hget]
  simpa using hne

/-- Where a run of the function with halt checks enters an original block. -/
theorem Related.enter (href : Refines ir ir' marked last) {u : Block} (hu : u < ir.blocks.length)
    {ρ₀ ρ : SSAValue → M.Val} (henv : Set.EqOn ρ₀ ρ (Set.Iio ir.ssaValues.length))
    {w : M.World} (r₀ r : ℕ) :
    Related ir ir' marked last (⟨u, 0, ρ₀, w, r₀⟩ : Config M.toMachine) ⟨u, 0, ρ, w, r⟩ where
  block := hu
  place := ⟨[], [], _, rfl, rfl, rfl, href.covers u hu, by simp⟩
  env := henv
  world := rfl

/-- A jump to an original block makes the same copies in both functions. -/
theorem jumpCopies_eq (href : Refines ir ir' marked last) {jump : Jump}
    (ht : jump.target < ir.blocks.length) :
    Machine.jumpCopies ir' jump = Machine.jumpCopies ir jump := by
  have hget := List.getElem?_eq_getElem ht
  have hget' := List.getElem?_eq_getElem (lt_of_lt_of_le ht href.blocks)
  have hparams := href.parameters jump.target ht
  rw [blockD_eq hget, blockD_eq hget'] at hparams
  unfold Machine.jumpCopies
  simp only [hget, hget', hparams]

/-- The values a jump copies are its arguments. -/
theorem jumpCopies_args {jump : Jump} {copies : List (SSAValue × SSAValue)}
    (h : Machine.jumpCopies ir jump = some copies) : ∀ p ∈ copies, p.2 ∈ jump.parameters := by
  unfold Machine.jumpCopies at h
  split at h
  · cases h
  · split_ifs at h
    obtain rfl := Option.some.inj h
    intro p hp
    exact (List.of_mem_zip hp).2

theorem takeJump_same (href : Refines ir ir' marked last)
    (henv : Set.EqOn c₀.env c.env (Set.Iio ir.ssaValues.length)) (hworld : c₀.world = c.world)
    {e : Event M.toMachine} (horig : isOriginal ir e = true) (hload : isLoad ir' e = false)
    {jump : Jump} (ht : jump.target < ir.blocks.length)
    (hargs : ∀ v ∈ jump.parameters, v < ir.ssaValues.length) :
    SameNext ir ir' marked last c.reads (M.takeJump ir (backend.copy M.Val) c₀ e jump)
      (M.takeJump ir' (backend.copy M.Val) c e jump) := by
  unfold Machine.takeJump
  rw [jumpCopies_eq href ht]
  cases hcopies : Machine.jumpCopies ir jump with
  | none => exact .stuck
  | some copies =>
    refine .step horig hload ?_ rfl
    rw [show c.world = c₀.world from hworld.symm]
    refine Related.enter href ht (backend.copy_eqOn (fun p hp => ?_) henv) _ _
    exact hargs _ (jumpCopies_args hcopies p hp)

/-- The terminator of an original block is next in both functions. -/
theorem nextTerm_same (hwf : WF ir) (href : Refines ir ir' marked last)
    (henv : Set.EqOn c₀.env c.env (Set.Iio ir.ssaValues.length)) (hworld : c₀.world = c.world)
    {u : Block} (hu : u < ir.blocks.length) :
    SameNext ir ir' marked last c.reads
      (M.nextTerm ir (backend.copy M.Val) c₀ (ir.blockD u).terminator)
      (M.nextTerm ir' (backend.copy M.Val) c (ir.blockD u).terminator) := by
  have hget := List.getElem?_eq_getElem hu
  have hdata := hwf.blocks _ (List.mem_of_getElem? hget)
  rw [← blockD_eq hget] at hdata
  have hops := hdata.operands_lt
  have htargets : ∀ j ∈ (ir.blockD u).terminator.targets, j.target < ir.blocks.length := fun j hj =>
    (hdata.targets _ (Terminator.mem_blockTargets.2 ⟨j, hj, rfl⟩)).2
  have horig : isOriginal ir (.term (ir.blockD u).terminator
      ((ir.blockD u).terminator.operands.map c.env) : Event M.toMachine) = true := by
    simp only [isOriginal, List.all_eq_true, decide_eq_true_eq]
    exact hops
  unfold Machine.nextTerm
  simp only [map_eq_of_eqOn henv hops]
  cases ht : (ir.blockD u).terminator with
  | ret | returnCode v =>
    rw [ht] at horig
    exact .done horig rfl
  | br jump =>
    rw [ht] at horig hops htargets
    exact takeJump_same backend href henv hworld horig rfl
      (htargets jump (by simp [Terminator.targets])) hops
  | brZ cond zero nonZero =>
    rw [ht] at horig hops htargets
    have hcond : c₀.env cond = c.env cond := henv (hops cond (by simp [Terminator.operands]))
    simp only [hcond]
    refine takeJump_same backend href henv hworld horig rfl (htargets _ ?_) fun v hv => hops v ?_
    · split_ifs <;> simp [Terminator.targets]
    · simp only [Terminator.operands, List.mem_cons, List.mem_append]
      split_ifs at hv
      · exact .inr (.inl hv)
      · exact .inr (.inr hv)

/-- The events of leaving the function in the world `w`: the halt reason is taken, and what
    was taken is returned. -/
inductive Leaves (ir ir' : ExecIrBuilder) (w : M.World) : List (Event M.toMachine) → Prop
  | intro {take : Stmt} {code : SSAValue} {result : M.Val} {w' : M.World}
      (take_new : ir.stmts.length ≤ take) (code_new : ir.ssaValues.length ≤ code)
      (take_data : ir'.stmts[take]? = some ⟨[code], .takeHaltReason⟩)
      (taken : M.eval .takeHaltReason [] w = some ([result], w')) :
      Leaves ir ir' w [.stmt take [], .term (.returnCode code) [result]]

/-- A run in the block to leave by. -/
theorem run_leave (href : Refines ir ir' marked last) (hleave : ir'.leaveAndTakeHalt = some c.block)
    (hpc : c.pc = 0) :
    ∃ events, Leaves ir ir' c.world events ∧
      ∀ n, M.run ir' (backend.copy M.Val) halts (n + 2) c = (events, .returned) := by
  obtain ⟨-, -, take, code, ⟨⟨data, hdata, -, hstmts, hterm⟩, htake⟩, htake_new, hcode_new⟩ :=
    href.leave c.block hleave
  obtain ⟨result, w', htaken⟩ := M.take_haltReason c.world
  refine ⟨_, .intro htake_new hcode_new htake htaken, fun n => ?_⟩
  have htakes : M.next ir' (backend.copy M.Val) halts c = .step (.stmt take [])
      ⟨c.block, 1, Function.update c.env code result, w', c.reads⟩ := by
    rw [next_of_stmt M.toMachine _ _ hdata (by rw [hstmts, hpc]; rfl),
      nextStmt_of_ne M.toMachine htake (by simp)]
    simp only [StmtKind.operands, List.map_nil, htaken, hpc]
    rfl
  have hreturns : M.next ir' (backend.copy M.Val) halts
      ⟨c.block, 1, Function.update c.env code result, w', c.reads⟩ =
        .done (.term (.returnCode code) [result]) := by
    refine (next_of_end M.toMachine
      (c := ⟨c.block, 1, Function.update c.env code result, w', c.reads⟩) hdata
        (by simp [hstmts])).trans ?_
    rw [hterm]
    simp [Machine.nextTerm, Terminator.operands]
  rw [run_step M.toMachine htakes, run_done M.toMachine hreturns]

/-- The event of the branch of a halt check that read `r`. -/
def branchEvent (reason : SSAValue) (next leave : Block) (r : BitVec 32) : Event M.toMachine :=
  .term (.brZ reason ⟨next, []⟩ ⟨leave, []⟩) [M.haltReason r]

/-- The branch of a halt check that read `r`: zero leads to the continuation, anything else
    out of the function. -/
theorem branch_next (href : Refines ir ir' marked last) {done : List Stmt} {x load : Stmt}
    {reason : SSAValue} {next leave : Block}
    (h : HaltCheckAt ir ir' c.block done x load reason next leave) (hpc : c.pc = done.length + 2)
    {r : BitVec 32} (hr : c.env reason = M.haltReason r) :
    (r = 0 → M.next ir' (backend.copy M.Val) halts c =
      .step (branchEvent reason next leave r) ⟨next, 0, c.env, c.world, c.reads⟩) ∧
    (r ≠ 0 → ∃ events, Leaves ir ir' c.world events ∧
      ∀ n, M.run ir' (backend.copy M.Val) halts (n + 3) c =
        (branchEvent reason next leave r :: events, .returned)) := by
  obtain ⟨data, hdata, hstmts, hterm⟩ := h.block
  have hbranch : M.next ir' (backend.copy M.Val) halts c =
      M.takeJump ir' (backend.copy M.Val) c (branchEvent reason next leave r)
        (if M.isZero (M.haltReason r) then ⟨next, []⟩ else ⟨leave, []⟩) := by
    rw [next_of_end M.toMachine hdata (by rw [hstmts, hpc]; simp), hterm]
    simp only [Machine.nextTerm, Terminator.operands, List.append_nil, List.map_cons,
      List.map_nil, hr]
    rfl
  constructor
  · intro hzero
    obtain ⟨dnext, hnext, hparams⟩ := h.next
    rw [hbranch, if_pos ((M.isZero_haltReason r).2 hzero),
      takeJump_nil M.toMachine backend hnext hparams]
  · intro hne
    obtain ⟨-, -, take, code, ⟨⟨dleave, hdleave, hparams, -⟩, -⟩, -⟩ := href.leave leave h.leave
    rw [if_neg fun hz => hne ((M.isZero_haltReason r).1 hz),
      takeJump_nil M.toMachine backend hdleave hparams] at hbranch
    obtain ⟨events, hleaves, hrun⟩ := run_leave backend halts href
      (c := (⟨leave, 0, c.env, c.world, c.reads⟩ : Config M.toMachine)) h.leave rfl
    refine ⟨events, hleaves, fun n => ?_⟩
    rw [run_step M.toMachine hbranch, hrun]

/-- The halt check after a safepoint: the halt reason is read and tested. -/
theorem check_next (href : Refines ir ir' marked last) {done : List Stmt} {x load : Stmt}
    {reason : SSAValue} {next leave : Block}
    (h : HaltCheckAt ir ir' c.block done x load reason next leave) (hpc : c.pc = done.length + 1) :
    ∃ c', M.next ir' (backend.copy M.Val) halts c = .step (.stmt load []) c' ∧ c.world = c'.world ∧
      (halts c.reads = 0 → ∃ ρ, Set.EqOn c.env ρ (Set.Iio ir.ssaValues.length) ∧
        M.next ir' (backend.copy M.Val) halts c' =
          .step (branchEvent reason next leave (halts c.reads))
            ⟨next, 0, ρ, c.world, c.reads + 1⟩) ∧
      (halts c.reads ≠ 0 → ∃ events, Leaves ir ir' c.world events ∧
        ∀ n, M.run ir' (backend.copy M.Val) halts (n + 3) c' =
          (branchEvent reason next leave (halts c.reads) :: events, .returned)) := by
  obtain ⟨data, hdata, hstmts, -⟩ := h.block
  have hload := next_of_stmt M.toMachine (backend.copy M.Val) halts hdata
    (by rw [hstmts, hpc]; simp : data.stmts[c.pc]? = some load)
  rw [nextStmt_load M.toMachine h.load_data] at hload
  obtain ⟨hzero, hnonZero⟩ := branch_next backend halts href
    (c := ⟨c.block, c.pc + 1, Function.update c.env reason (M.haltReason (halts c.reads)), c.world,
      c.reads + 1⟩) h (by rw [hpc]) (Function.update_self _ _ _)
  refine ⟨_, hload, rfl, fun hz => ⟨_, fun v hv => ?_, hzero hz⟩, hnonZero⟩
  exact (Function.update_of_ne (Nat.ne_of_lt (lt_of_lt_of_le hv h.reason_new)) _ _).symm

/-- What a step does from related states: the same step in both functions, or, at a
    safepoint with a halt check, the safepoint in both and the halt check in one of them. -/
inductive NextCases (ir ir' : ExecIrBuilder) (marked : Finset Stmt) (last : Block → Block)
    (c₀ c : Config M.toMachine) : Prop
  | same (same : SameNext ir ir' marked last c.reads (M.next ir (backend.copy M.Val) halts c₀)
      (M.next ir' (backend.copy M.Val) halts c))
  | checked {x load : Stmt} {reason : SSAValue} {next leave : Block}
    {c₀' c₁ c₂ : Config M.toMachine}
      (safepoint : ir.isSafepoint x = true)
      (load_new : ir.stmts.length ≤ load) (reason_new : ir.ssaValues.length ≤ reason)
      (load_data : ir'.stmts[load]? = some ⟨[reason], .loadHaltReason⟩)
      (step₀ : M.next ir (backend.copy M.Val) halts c₀ = .step (.stmt x []) c₀')
      (step : M.next ir' (backend.copy M.Val) halts c = .step (.stmt x []) c₁)
      (world₁ : c₀'.world = c₁.world)
      (loads : M.next ir' (backend.copy M.Val) halts c₁ = .step (.stmt load []) c₂)
      (world₂ : c₀'.world = c₂.world)
      (zero : halts c.reads = 0 → ∃ c₃, M.next ir' (backend.copy M.Val) halts c₂ =
        .step (branchEvent reason next leave (halts c.reads)) c₃ ∧
          Related ir ir' marked last c₀' c₃ ∧ c₃.reads = c.reads + 1)
      (nonZero : halts c.reads ≠ 0 → ∃ events, Leaves ir ir' c₀'.world events ∧
        ∀ n, M.run ir' (backend.copy M.Val) halts (n + 3) c₂ =
          (branchEvent reason next leave (halts c.reads) :: events, .returned)) :
      NextCases ir ir' marked last c₀ c

theorem next_cases (hwf : WF ir) (href : Refines ir ir' marked last)
    (h : Related ir ir' marked last c₀ c) : NextCases backend halts ir ir' marked last c₀ c := by
  obtain ⟨before, done, todo, hsplit, hpc₀, hpc, hcov, hdone⟩ := h.place
  obtain ⟨data₀, hget⟩ : ∃ data₀, ir.blocks[c₀.block]? = some data₀ :=
    ⟨_, List.getElem?_eq_getElem h.block⟩
  rw [blockD_eq hget] at hsplit
  cases todo with
  | nil =>
    -- at the terminator of the original block
    rw [List.append_nil] at hcov hsplit
    obtain ⟨hend, data, hdata, hstmts⟩ := hcov.at_end hdone
    refine .same ?_
    rw [next_of_end M.toMachine hget (by rw [hsplit, hpc₀]; simp),
      next_of_end M.toMachine hdata (by rw [hstmts, hpc])]
    have hterm := href.terminator c₀.block h.block
    rw [← hend, blockD_eq hdata] at hterm
    rw [hterm, ← blockD_eq hget]
    exact nextTerm_same backend hwf href h.env h.world h.block
  | cons x todo =>
    have hx₀ : data₀.stmts[c₀.pc]? = some x := by
      rw [hsplit, hpc₀]
      simp [← List.append_assoc]
    have hx : x < ir.stmts.length :=
      (hwf.blocks _ (List.mem_of_getElem? hget)).stmts_lt x (List.mem_of_getElem? hx₀)
    have hsame := nextStmt_same (M := M) halts hwf href h.env h.world hx
    rw [← next_of_stmt M.toMachine (backend.copy M.Val) halts hget hx₀] at hsame
    by_cases hmark : x ∈ marked
    · obtain ⟨load, reason, next, leave, hcheck, hrest⟩ := hcov.at_check hdone hmark
      obtain ⟨data, hdata, hstmts, -⟩ := hcheck.block
      rw [← next_of_stmt M.toMachine (backend.copy M.Val) halts hdata
        (by rw [hstmts, hpc]; simp)] at hsame
      obtain ⟨hstuck₀, hstuck⟩ | ⟨xdata, vals, world, hxdata, hstep₀, hstep⟩ := hsame
      · refine .same ?_
        rw [hstuck₀, hstuck]
        exact .stuck
      have hsafe := href.marked x hmark
      have hops : xdata.rvalue.operands = [] := by
        unfold ExecIrBuilder.isSafepoint at hsafe
        rw [hxdata] at hsafe
        rw [beq_iff_eq.1 hsafe]
        rfl
      rw [hops] at hstep₀ hstep
      obtain ⟨c₂, hload, hworld₂, hzero, hnonZero⟩ := check_next backend halts href
        (c := ⟨c.block, c.pc + 1, M.define c.env xdata.outputs vals, world, c.reads⟩) hcheck
        (congrArg (· + 1) hpc)
      refine .checked hsafe hcheck.load_new hcheck.reason_new hcheck.load_data hstep₀
        hstep rfl hload
        hworld₂ (fun hz => ?_) hnonZero
      obtain ⟨ρ, hρ, hbranch⟩ := hzero hz
      refine ⟨_, hbranch, ⟨h.block, ?_, (define_eqOn M.toMachine h.env _ _).trans hρ, rfl⟩, rfl⟩
      refine ⟨before ++ (done ++ [x]), [], todo, ?_, ?_, rfl, hrest, by simp⟩
      · show (ir.blockD c₀.block).stmts = _
        rw [blockD_eq hget, hsplit]
        simp
      · show c₀.pc + 1 = _
        rw [hpc₀]
        simp
        omega
    · obtain ⟨data, hdata, hstmt⟩ := hcov.at_stmt hdone hmark
      rw [← next_of_stmt M.toMachine (backend.copy M.Val) halts hdata
        (by rw [hpc]; exact hstmt)] at hsame
      refine .same ?_
      obtain ⟨hstuck₀, hstuck⟩ | ⟨xdata, vals, world, hxdata, hstep₀, hstep⟩ := hsame
      · rw [hstuck₀, hstuck]
        exact .stuck
      rw [hstep₀, hstep]
      refine .step (by simpa [isOriginal] using hx) (isLoad_original hwf href hx _) ⟨h.block, ?_,
        ?_, rfl⟩ rfl
      · refine ⟨before, done ++ [x], todo, ?_, ?_, ?_, ?_, ?_⟩
        · show (ir.blockD c₀.block).stmts = _
          rw [blockD_eq hget, hsplit]
          simp
        · show c₀.pc + 1 = _
          rw [hpc₀]
          simp
          omega
        · show c.pc + 1 = _
          rw [hpc]
          simp
        · rw [List.append_assoc]
          exact hcov
        · intro y hy
          rcases List.mem_append.1 hy with hy | hy
          · exact hdone y hy
          · rw [List.mem_singleton.1 hy]
            exact hmark
      · exact define_eqOn M.toMachine h.env _ _

/-! ## Whole runs -/

/-- What is read after `r` reads. -/
def later (halts : ℕ → BitVec 32) (r : ℕ) : ℕ → BitVec 32 := fun i => halts (r + i)

theorem later_zero (halts : ℕ → BitVec 32) : later halts 0 = halts := by
  funext i
  exact congrArg halts (Nat.zero_add i)

theorem later_succ (halts : ℕ → BitVec 32) (r : ℕ) :
    (fun i => later halts r (i + 1)) = later halts (r + 1) := by
  funext i
  show halts (r + (i + 1)) = halts (r + 1 + i)
  rw [Nat.add_right_comm, Nat.add_assoc]

theorem isOriginal_safepoint {x : Stmt} (h : ir.isSafepoint x = true) (vals : List M.Val) :
    isOriginal ir (.stmt x vals : Event M.toMachine) = true :=
  decide_eq_true (isSafepoint_lt h)

theorem isOriginal_added {s : Stmt} (h : ir.stmts.length ≤ s) (vals : List M.Val) :
    isOriginal ir (.stmt s vals : Event M.toMachine) = false :=
  decide_eq_false (Nat.not_lt.2 h)

theorem isOriginal_branchEvent {reason : SSAValue} (h : ir.ssaValues.length ≤ reason)
    (next leave : Block) (r : BitVec 32) :
    isOriginal ir (branchEvent reason next leave r : Event M.toMachine) = false := by
  simp [branchEvent, isOriginal, Terminator.operands, h]

theorem isLoad_load {load : Stmt} {reason : SSAValue}
    (h : ir'.stmts[load]? = some ⟨[reason], .loadHaltReason⟩) (vals : List M.Val) :
    isLoad ir' (.stmt load vals : Event M.toMachine) = true := by
  simp [isLoad, h]

/-- The reads of a halt check that read zero, and of what follows it. -/
theorem readsZero_check (hwf : WF ir) (href : Refines ir ir' marked last) {x load : Stmt}
    {reason : SSAValue} (hx : ir.isSafepoint x = true)
    (hload : ir'.stmts[load]? = some ⟨[reason], .loadHaltReason⟩) {r : ℕ}
    {events : List (Event M.toMachine)} :
    ReadsZero ir' (later halts r) (.stmt x [] :: .stmt load [] :: events) ↔
      halts r = 0 ∧ ReadsZero ir' (later halts (r + 1)) events := by
  rw [readsZero_cons_false (isLoad_original hwf href (isSafepoint_lt hx) _),
    readsZero_cons_true (isLoad_load hload _), later_succ]
  rfl

/-- As long as the halt checks read zero, every run of the function with halt checks does
    what a run of the original function does. -/
theorem run_same (hwf : WF ir) (href : Refines ir ir' marked last) (n : ℕ)
    (h : Related ir ir' marked last c₀ c)
    (hz : ReadsZero ir' (later halts c.reads) (M.run ir' (backend.copy M.Val) halts n c).1) :
    ∃ m ≤ n, SameRun ir (M.run ir (backend.copy M.Val) halts m c₀)
      (M.run ir' (backend.copy M.Val) halts n c) := by
  induction n using Nat.strong_induction_on generalizing c₀ c with
  | _ n ih =>
  rcases n with _ | n
  · exact ⟨0, le_refl _, rfl, .running h.world⟩
  obtain hsame | ⟨hsafe, hload_new, hreason_new, hload_data, hstep₀, hstep, hworld₁, hload, hworld₂,
      hzero, -⟩ :=
    next_cases backend halts hwf href h
  · generalize hnext₀ : M.next ir (backend.copy M.Val) halts c₀ = next₀ at hsame
    generalize hnext : M.next ir' (backend.copy M.Val) halts c = next at hsame
    cases hsame with
    | step original notLoad related reads_eq =>
      rw [run_step M.toMachine hnext, readsZero_cons_false notLoad, ← reads_eq] at hz
      obtain ⟨m, hm, hrun⟩ := ih n (Nat.lt_succ_self n) related hz
      refine ⟨m + 1, Nat.succ_le_succ hm, ?_⟩
      rw [run_step M.toMachine hnext, run_step M.toMachine hnext₀]
      exact hrun.cons original
    | @done e original notLoad =>
      refine ⟨1, Nat.succ_le_succ (Nat.zero_le n), ?_⟩
      rw [run_done M.toMachine hnext, run_done M.toMachine hnext₀]
      exact ⟨List.filter_cons_of_pos original, .returned⟩
    | stuck =>
      refine ⟨1, Nat.succ_le_succ (Nat.zero_le n), ?_⟩
      rw [run_stuck M.toMachine hnext, run_stuck M.toMachine hnext₀]
      exact ⟨rfl, .stuck⟩
  · have horig := isOriginal_safepoint (M := M) hsafe []
    have hadded := isOriginal_added (M := M) hload_new []
    rw [run_step M.toMachine hstep]
    -- in the middle of the halt check, or past it
    rcases n with _ | _ | n
    · refine ⟨1, le_refl _, ?_⟩
      rw [run_step M.toMachine hstep₀]
      exact SameRun.cons ⟨rfl, .running hworld₁⟩ horig
    · refine ⟨1, Nat.le_succ _, ?_⟩
      rw [run_step M.toMachine hstep₀, run_step M.toMachine hload]
      exact SameRun.cons (.cons_added ⟨rfl, .running hworld₂⟩ hadded) horig
    · rw [run_step M.toMachine hstep, run_step M.toMachine hload,
        readsZero_check halts hwf href hsafe hload_data] at hz
      obtain ⟨c₃, hbranch, hrelated, hreads⟩ := hzero hz.1
      rw [run_step M.toMachine hbranch, readsZero_cons_false rfl, ← hreads] at hz
      obtain ⟨m, hm, hrun⟩ := ih n (by omega) hrelated hz.2
      refine ⟨m + 1, by omega, ?_⟩
      rw [run_step M.toMachine hstep₀, run_step M.toMachine hload, run_step M.toMachine hbranch]
      exact ((hrun.cons_added (isOriginal_branchEvent hreason_new _ _ _)).cons_added
        hadded).cons horig

/-- Every run of the original function is what some run of the function with halt checks
    does, as long as the halt checks read zero. -/
theorem run_reaches (hwf : WF ir) (href : Refines ir ir' marked last) (m : ℕ)
    (h : Related ir ir' marked last c₀ c) :
    ∃ n ≥ m, ReadsZero ir' (later halts c.reads) (M.run ir' (backend.copy M.Val) halts n c).1 →
      SameRun ir (M.run ir (backend.copy M.Val) halts m c₀)
        (M.run ir' (backend.copy M.Val) halts n c) := by
  induction m generalizing c₀ c with
  | zero => exact ⟨0, le_refl _, fun _ => ⟨rfl, .running h.world⟩⟩
  | succ m ih =>
  obtain hsame | ⟨hsafe, hload_new, hreason_new, hload_data, hstep₀, hstep, -, hload, -,
      hzero, -⟩ :=
    next_cases backend halts hwf href h
  · generalize hnext₀ : M.next ir (backend.copy M.Val) halts c₀ = next₀ at hsame
    generalize hnext : M.next ir' (backend.copy M.Val) halts c = next at hsame
    cases hsame with
    | step original notLoad related reads_eq =>
      obtain ⟨n, hn, hrun⟩ := ih related
      refine ⟨n + 1, Nat.succ_le_succ hn, fun hz => ?_⟩
      rw [run_step M.toMachine hnext, readsZero_cons_false notLoad, ← reads_eq] at hz
      rw [run_step M.toMachine hnext, run_step M.toMachine hnext₀]
      exact (hrun hz).cons original
    | done original notLoad =>
      refine ⟨m + 1, le_refl _, fun _ => ?_⟩
      rw [run_done M.toMachine hnext, run_done M.toMachine hnext₀]
      exact ⟨List.filter_cons_of_pos original, .returned⟩
    | stuck =>
      refine ⟨m + 1, le_refl _, fun _ => ?_⟩
      rw [run_stuck M.toMachine hnext, run_stuck M.toMachine hnext₀]
      exact ⟨rfl, .stuck⟩
  · by_cases hread : halts c.reads = 0
    · obtain ⟨c₃, hbranch, hrelated, hreads⟩ := hzero hread
      obtain ⟨n, hn, hrun⟩ := ih hrelated
      refine ⟨n + 3, by omega, fun hz => ?_⟩
      rw [run_step M.toMachine hstep, run_step M.toMachine hload, run_step M.toMachine hbranch,
        readsZero_check halts hwf href hsafe hload_data, readsZero_cons_false rfl, ← hreads] at hz
      rw [run_step M.toMachine hstep₀, run_step M.toMachine hstep, run_step M.toMachine hload,
        run_step M.toMachine hbranch]
      exact (((hrun hz.2).cons_added (isOriginal_branchEvent hreason_new _ _ _)).cons_added
        (isOriginal_added hload_new [])).cons (isOriginal_safepoint hsafe [])
    · refine ⟨m + 2, Nat.le_succ _, fun hz => ?_⟩
      rw [run_step M.toMachine hstep, run_step M.toMachine hload,
        readsZero_check halts hwf href hsafe hload_data] at hz
      exact (hread hz.1).elim

/-- A run that was halted: the events of the original run `r₀`, which ends right after a
    safepoint, with halt checks that read zero in between, the halt check after this
    safepoint, which did not, and then only the taking and the return of the halt reason. -/
inductive HaltedRun (ir ir' : ExecIrBuilder) (halts : ℕ → BitVec 32) :
    List (Event M.toMachine) × Machine.Outcome M.toMachine → List (Event M.toMachine) → Prop
  | intro (before : List (Event M.toMachine)) {tail : List (Event M.toMachine)} {x load : Stmt}
      {reason : SSAValue} (next leave : Block)
        {c₀ : Config M.toMachine} (zero : ReadsZero ir' halts before)
      (safepoint : ir.isSafepoint x = true) (load_new : ir.stmts.length ≤ load)
      (load_data : ir'.stmts[load]? = some ⟨[reason], .loadHaltReason⟩)
      (read : halts (loads ir' before) ≠ 0) (leaves : Leaves ir ir' c₀.world tail) :
      HaltedRun ir ir' halts (before.filter (isOriginal ir) ++ [.stmt x []], .running c₀)
        (before ++ .stmt x [] :: .stmt load [] ::
          branchEvent reason next leave (halts (loads ir' before)) :: tail)

theorem HaltedRun.cons {r₀ : List (Event M.toMachine) × Machine.Outcome M.toMachine}
    {events : List (Event M.toMachine)} {e : Event M.toMachine} {h : ℕ → BitVec 32}
    (hrun : HaltedRun ir ir' h r₀ events) (he : isOriginal ir e = true)
    (hload : isLoad ir' e = false) :
    HaltedRun ir ir' h (e :: r₀.1, r₀.2) (e :: events) := by
  cases hrun with
  | @intro before tail x load reason next leave c₀ zero safepoint load_new load_data read leaves =>
    rw [← loads_cons_false hload before] at read ⊢
    have hcons :=
      HaltedRun.intro (e :: before) next leave ((readsZero_cons_false hload).2 zero) safepoint
        load_new load_data read leaves
    rw [List.filter_cons_of_pos he] at hcons
    exact hcons

/-- A halt check that read zero. -/
theorem HaltedRun.cons_check (hwf : WF ir) (href : Refines ir ir' marked last) {x load : Stmt}
    {reason : SSAValue} (next leave : Block) {r : ℕ}
    {r₀ : List (Event M.toMachine) × Machine.Outcome M.toMachine}
    {events : List (Event M.toMachine)} (hrun : HaltedRun ir ir' (later halts (r + 1)) r₀ events)
    (hx : ir.isSafepoint x = true) (hload_new : ir.stmts.length ≤ load)
    (hreason_new : ir.ssaValues.length ≤ reason)
    (hload : ir'.stmts[load]? = some ⟨[reason], .loadHaltReason⟩) (hzero : halts r = 0) :
    HaltedRun ir ir' (later halts r) (.stmt x [] :: r₀.1, r₀.2)
      (.stmt x [] :: .stmt load [] :: branchEvent reason next leave (halts r) :: events) := by
  refine HaltedRun.cons ?_ (isOriginal_safepoint hx [])
    (isLoad_original hwf href (isSafepoint_lt hx) _)
  cases hrun with
  | @intro before tail x' load' reason' next' leave' c₀ zero safepoint load_new load_data
    read leaves =>
    let check : List (Event M.toMachine) :=
      .stmt load [] :: branchEvent reason next leave (halts r) :: before
    have hloads : loads ir' check = loads ir' before + 1 := by
      rw [loads_cons_true (isLoad_load hload _), loads_cons_false rfl]
    have hread : later halts r (loads ir' check) = later halts (r + 1) (loads ir' before) := by
      rw [hloads]
      exact congrFun (later_succ halts r) _
    have hfilter : check.filter (isOriginal ir) = before.filter (isOriginal ir) := by
      rw [List.filter_cons_of_neg (by simp [isOriginal_added hload_new]),
        List.filter_cons_of_neg (by simp [isOriginal_branchEvent hreason_new])]
    have hz : ReadsZero ir' (later halts r) check := by
      rw [readsZero_cons_true (isLoad_load hload _), readsZero_cons_false rfl, later_succ]
      exact ⟨hzero, zero⟩
    rw [← hread] at read ⊢
    rw [← hfilter]
    exact .intro check next' leave' hz safepoint load_new load_data read leaves

/-- Once a halt check reads a halt reason, the run was one of the original function up to
    the safepoint before it, and it leaves the function. -/
theorem run_halted (hwf : WF ir) (href : Refines ir ir' marked last) (n : ℕ)
    (h : Related ir ir' marked last c₀ c)
    (hz : ¬ ReadsZero ir' (later halts c.reads) (M.run ir' (backend.copy M.Val) halts n c).1) :
    ∃ m events, HaltedRun ir ir' (later halts c.reads)
      (M.run ir (backend.copy M.Val) halts m c₀) events ∧
      ∀ k ≥ events.length, M.run ir' (backend.copy M.Val) halts k c = (events, .returned) := by
  induction n using Nat.strong_induction_on generalizing c₀ c with
  | _ n ih =>
  rcases n with _ | n
  · exact (hz readsZero_nil).elim
  obtain hsame | @⟨x, load, reason, next, leave, c₀', c₁, c₂, hsafe, hload_new,
      hreason_new, hload_data,
    hstep₀, hstep, -, hload, -, hzero, hnonZero⟩ := next_cases backend halts hwf href h
  · generalize hnext₀ : M.next ir (backend.copy M.Val) halts c₀ = next₀ at hsame
    generalize hnext : M.next ir' (backend.copy M.Val) halts c = next at hsame
    cases hsame with
    | step original notLoad related reads_eq =>
      rw [run_step M.toMachine hnext, readsZero_cons_false notLoad, ← reads_eq] at hz
      obtain ⟨m, events, hrun, hend⟩ := ih n (Nat.lt_succ_self n) related hz
      rw [reads_eq] at hrun
      have hhalted := hrun.cons original notLoad
      rw [← run_step M.toMachine hnext₀] at hhalted
      refine ⟨m + 1, _, hhalted, fun k hk => ?_⟩
      obtain ⟨k, rfl⟩ := Nat.exists_eq_add_of_le hk
      rw [List.length_cons, Nat.add_right_comm, run_step M.toMachine hnext,
        hend _ (Nat.le_add_right _ _)]
    | done original notLoad =>
      rw [run_done M.toMachine hnext, readsZero_cons_false notLoad] at hz
      exact (hz readsZero_nil).elim
    | stuck =>
      rw [run_stuck M.toMachine hnext] at hz
      exact (hz readsZero_nil).elim
  · by_cases hread : halts c.reads = 0
    · obtain ⟨c₃, hbranch, hrelated, hreads⟩ := hzero hread
      rw [run_step M.toMachine hstep] at hz
      rcases n with _ | _ | n
      · rw [readsZero_cons_false (isLoad_original hwf href (isSafepoint_lt hsafe) _)] at hz
        exact (hz readsZero_nil).elim
      · rw [run_step M.toMachine hload, readsZero_check halts hwf href hsafe hload_data] at hz
        exact (hz ⟨hread, readsZero_nil⟩).elim
      rw [run_step M.toMachine hload, readsZero_check halts hwf href hsafe hload_data,
        run_step M.toMachine hbranch, readsZero_cons_false rfl, ← hreads] at hz
      obtain ⟨m, events, hrun, hend⟩ := ih n (by omega) hrelated fun hz' => hz ⟨hread, hz'⟩
      rw [hreads] at hrun
      have hhalted := hrun.cons_check halts hwf href next leave hsafe hload_new
        hreason_new hload_data hread
      rw [← run_step M.toMachine hstep₀] at hhalted
      refine ⟨m + 1, _, hhalted, fun k hk => ?_⟩
      obtain ⟨k, rfl⟩ := Nat.exists_eq_add_of_le hk
      rw [List.length_cons, List.length_cons, List.length_cons,
        show events.length + 1 + 1 + 1 + k = (events.length + k) + 1 + 1 + 1 by omega,
        run_step M.toMachine hstep, run_step M.toMachine hload, run_step M.toMachine hbranch,
        hend _ (Nat.le_add_right _ _)]
    · obtain ⟨tail, hleaves, hrun⟩ := hnonZero hread
      have hhalted : HaltedRun ir ir' (later halts c.reads) ([.stmt x []], .running c₀')
          (.stmt x [] :: .stmt load [] :: branchEvent reason next leave (halts c.reads) :: tail) :=
        .intro [] next leave readsZero_nil hsafe hload_new hload_data hread hleaves
      have hone : M.run ir (backend.copy M.Val) halts 1 c₀ = ([.stmt x []], .running c₀') :=
        run_step M.toMachine hstep₀ 0
      rw [← hone] at hhalted
      refine ⟨1, _, hhalted, fun k hk => ?_⟩
      have hlen : 5 ≤ k := by
        cases hleaves
        exact hk
      obtain ⟨k, rfl⟩ := Nat.exists_eq_add_of_le hlen
      rw [show 5 + k = (k + 3) + 1 + 1 by omega, run_step M.toMachine hstep,
        run_step M.toMachine hload, hrun]

end Simulation

end RapidArm.HaltCheck
