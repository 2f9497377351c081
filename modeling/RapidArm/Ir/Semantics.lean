import RapidArm.Ir.Builder

/-!
# Running an IR function

A small-step semantics of `ExecIr`, over any meaning of its statements: a
`Machine` says what values are, what the outside world is and what each statement
kind does. A step executes one statement or one terminator and emits an event.

The halt reason is set by other threads, so what `LoadHaltReason` reads is a
stream `halts` from outside: the `i`-th read of a run returns `halts i`.

How a jump copies its arguments into the parameters of its target is a parameter
(`Copy`), since the two backends do it differently.
-/

namespace RapidArm.Ir

/-- A meaning of the statements: `eval` computes the outputs of a statement from
    its operands, or is stuck (undefined behaviour, an operand of a wrong type). -/
structure Machine where
  Val : Type
  World : Type
  eval : StmtKind → List Val → World → Option (List Val × World)
  isZero : Val → Bool
  haltReason : BitVec 32 → Val

/-- How the copies `(parameter, argument)` of a jump are executed. -/
abbrev Copy (α : Type) := List (SSAValue × SSAValue) → (SSAValue → α) → SSAValue → α

/-- The state of a run: the next statement (or, past the last one, the terminator)
    of a block, the values, the world, and how often the halt reason was read. -/
structure Config (M : Machine) where
  block : Block
  pc : ℕ
  env : SSAValue → M.Val
  world : M.World
  reads : ℕ

/-- What one step executed, with the values of its operands. -/
inductive Event (M : Machine)
  | stmt (stmt : Stmt) (operands : List M.Val)
  | term (terminator : Terminator) (operands : List M.Val)

/-- The outcome of one step. -/
inductive Next (M : Machine)
  | step (event : Event M) (config : Config M)
  | done (event : Event M)
  | stuck

namespace Machine

variable (M : Machine)

/-- The values after a statement stored its outputs. -/
def define (env : SSAValue → M.Val) (outputs : List SSAValue) (vals : List M.Val) :
    SSAValue → M.Val :=
  (outputs.zip vals).foldl (fun ρ p => Function.update ρ p.1 p.2) env

/-- The outputs of a statement kind, with the halt reason read from the stream. -/
def evalStmt (halts : ℕ → BitVec 32) (c : Config M) (rvalue : StmtKind) :
    Option (List M.Val × M.World × ℕ) :=
  match rvalue with
  | .loadHaltReason => some ([M.haltReason (halts c.reads)], c.world, c.reads + 1)
  | _ => (M.eval rvalue (rvalue.operands.map c.env) c.world).map fun r => (r.1, r.2, c.reads)

/-- The copies a jump makes, if it passes one argument for each parameter. -/
def jumpCopies (ir : ExecIrBuilder) (jump : Jump) : Option (List (SSAValue × SSAValue)) :=
  match ir.blocks[jump.target]? with
  | none => none
  | some target =>
    if jump.parameters.length = target.parameters.length then
      some (target.parameters.zip jump.parameters)
    else none

/-- Taking a jump. -/
def takeJump (ir : ExecIrBuilder) (copy : Copy M.Val) (c : Config M) (event : Event M)
    (jump : Jump) : Next M :=
  match jumpCopies ir jump with
  | none => .stuck
  | some copies => .step event { c with block := jump.target, pc := 0, env := copy copies c.env }

/-- Executing a terminator. -/
def nextTerm (ir : ExecIrBuilder) (copy : Copy M.Val) (c : Config M) (t : Terminator) : Next M :=
  let event := Event.term t (t.operands.map c.env)
  match t with
  | .ret | .returnCode _ => .done event
  | .br jump => takeJump M ir copy c event jump
  | .brZ cond zero nonZero =>
    takeJump M ir copy c event (if M.isZero (c.env cond) then zero else nonZero)

/-- Executing a statement. -/
def nextStmt (ir : ExecIrBuilder) (halts : ℕ → BitVec 32) (c : Config M) (stmt : Stmt) : Next M :=
  match ir.stmts[stmt]? with
  | none => .stuck
  | some data =>
    match evalStmt M halts c data.rvalue with
    | none => .stuck
    | some (vals, world, reads) =>
      .step (.stmt stmt (data.rvalue.operands.map c.env))
        { c with pc := c.pc + 1, env := M.define c.env data.outputs vals, world, reads }

/-- One step of a run. -/
def next (ir : ExecIrBuilder) (copy : Copy M.Val) (halts : ℕ → BitVec 32) (c : Config M) : Next M :=
  match ir.blocks[c.block]? with
  | none => .stuck
  | some data =>
    match data.stmts[c.pc]? with
    | some stmt => nextStmt M ir halts c stmt
    | none => nextTerm M ir copy c data.terminator

/-- How far a run got. -/
inductive Outcome
  | running (c : Config M)
  | returned
  | stuck

/-- The events of the first `fuel` steps of a run, and how far they got. -/
def run (ir : ExecIrBuilder) (copy : Copy M.Val) (halts : ℕ → BitVec 32) :
    ℕ → Config M → List (Event M) × Outcome M
  | 0, c => ([], .running c)
  | fuel + 1, c =>
    match next M ir copy halts c with
    | .step event c' =>
      let r := run ir copy halts fuel c'
      (event :: r.1, r.2)
    | .done event => ([event], .returned)
    | .stuck => ([], .stuck)

/-- The start of a run at the entry block. -/
def start (env : SSAValue → M.Val) (world : M.World) : Config M :=
  { block := Block.ENTRYPOINT, pc := 0, env, world, reads := 0 }

end Machine

/-! ## One step -/

section Step

variable (M : Machine) {ir : ExecIrBuilder} {copy : Copy M.Val} {halts : ℕ → BitVec 32}
  {c : Config M}

theorem next_of_stmt (copy : Copy M.Val) (halts : ℕ → BitVec 32) {data : BlockData} {stmt : Stmt}
    (hdata : ir.blocks[c.block]? = some data) (hstmt : data.stmts[c.pc]? = some stmt) :
    M.next ir copy halts c = M.nextStmt ir halts c stmt := by
  unfold Machine.next
  simp only [hdata, hstmt]

theorem next_of_end {data : BlockData} (hdata : ir.blocks[c.block]? = some data)
    (hend : data.stmts.length ≤ c.pc) :
    M.next ir copy halts c = M.nextTerm ir copy c data.terminator := by
  unfold Machine.next
  simp only [hdata, List.getElem?_eq_none hend]

theorem nextStmt_of_ne {stmt : Stmt} {data : StmtData} (hdata : ir.stmts[stmt]? = some data)
    (hne : data.rvalue ≠ .loadHaltReason) :
    M.nextStmt ir halts c stmt =
      match M.eval data.rvalue (data.rvalue.operands.map c.env) c.world with
      | none => .stuck
      | some (vals, world) => .step (.stmt stmt (data.rvalue.operands.map c.env))
          { c with pc := c.pc + 1, env := M.define c.env data.outputs vals, world := world } := by
  have heval : M.evalStmt halts c data.rvalue =
      (M.eval data.rvalue (data.rvalue.operands.map c.env) c.world).map
        fun r => (r.1, r.2, c.reads) := by
    unfold Machine.evalStmt
    split
    · contradiction
    · rfl
  unfold Machine.nextStmt
  simp only [hdata, heval]
  cases M.eval data.rvalue (data.rvalue.operands.map c.env) c.world <;> rfl

theorem nextStmt_load {stmt : Stmt} {reason : SSAValue}
    (hdata : ir.stmts[stmt]? = some ⟨[reason], .loadHaltReason⟩) :
    M.nextStmt ir halts c stmt = .step (.stmt stmt [])
      { c with pc := c.pc + 1, env := Function.update c.env reason (M.haltReason (halts c.reads)),
               reads := c.reads + 1 } := by
  unfold Machine.nextStmt
  simp only [hdata]
  rfl

end Step

end RapidArm.Ir
