import RapidArm.Clif.Host

/-!
# The code of Cranelift

The instructions of Cranelift that `compiler/cranelift_backend.rs` emits, and what they do. A
value is defined once and has an integer type; a host pointer is a 64-bit integer and a
boolean an 8-bit one. A block has parameters, which a jump binds at once.

Cranelift is not part of the repository: the meanings of its instructions are taken from its
documentation. Memory flags license the optimizer to move accesses and have no effect here,
nor has their byte order: accesses are those of the words of the host state. That accesses to
different alias regions do not overlap is assumed, as in `ir/mod.rs` (lines 186–188); an access
to the region of halt reasons is one to their cell.

What an instruction does outside the types and operations that the backend uses it for is left
undefined, like a trap.

Results:
* `ClifFunction.system_deterministic`: a run has one continuation.
-/

namespace RapidArm.Clif

open RapidArm.Ir RapidArm.Jit RapidArm.Lib RapidArm.Backend

/-! ## Syntax -/

/-- A value: its number in the data flow graph. -/
abbrev ClifValue := ℕ

/-- A block: its number in the order of creation. -/
abbrev ClifBlock := ℕ

/-- The conditions of `icmp`. -/
inductive IntCC
  | equal
  | notEqual
  | signedLessThan
  | signedGreaterThanOrEqual
  | signedGreaterThan
  | signedLessThanOrEqual
  | unsignedLessThan
  | unsignedGreaterThanOrEqual
  | unsignedGreaterThan
  | unsignedLessThanOrEqual
  deriving DecidableEq, Repr

inductive UnaryOp
  | ineg
  | bnot
  deriving DecidableEq, Repr

inductive BinaryOp
  | iadd
  | isub
  | imul
  | udiv
  | sdiv
  | band
  | bor
  | bxor
  | ishl
  | ushr
  | sshr
  deriving DecidableEq, Repr

inductive AtomicRmwOp
  | xchg
  | or
  deriving DecidableEq, Repr

/-- `MemFlagsData`, always `trusted`. -/
structure MemFlags where
  canMove : Bool
  readonly : Bool
  littleEndian : Bool
  region : AliasRegion
  deriving DecidableEq, Repr

/-- The types of a function that is called. -/
structure ClifSignature where
  params : List IntWidth
  returns : List IntWidth
  deriving DecidableEq, Repr

inductive ClifInst
  | iconst (ty : IntWidth) (imm : BitVec 64)
  | unary (op : UnaryOp) (arg : ClifValue)
  | binary (op : BinaryOp) (lhs rhs : ClifValue)
  | binaryImm (op : BinaryOp) (lhs : ClifValue) (imm : BitVec 64)
  | icmp (cc : IntCC) (lhs rhs : ClifValue)
  | icmpImm (cc : IntCC) (lhs : ClifValue) (imm : BitVec 64)
  | select (cond ifTrue ifFalse : ClifValue)
  | binaryOverflow (op : OverflowingBinOp) (lhs rhs : ClifValue)
  | uextend (ty : IntWidth) (arg : ClifValue)
  | stackAddr (slot : StackSlot)
  | load (ty : IntWidth) (flags : MemFlags) (ptr : ClifValue) (offset : BitVec 32)
  | store (flags : MemFlags) (value ptr : ClifValue) (offset : BitVec 32)
  | atomicLoad (ty : IntWidth) (flags : MemFlags) (ptr : ClifValue)
  | atomicStore (flags : MemFlags) (value ptr : ClifValue)
  | atomicRmw (ty : IntWidth) (flags : MemFlags) (op : AtomicRmwOp) (ptr value : ClifValue)
  | callIndirect (signature : ClifSignature) (callee : ClifValue) (args : List ClifValue)
  deriving DecidableEq, Repr

/-- An instruction with the values it defines. -/
structure ClifStmt where
  results : List ClifValue
  inst : ClifInst
  deriving DecidableEq, Repr

inductive ClifTerminator
  | jump (dest : ClifBlock × List ClifValue)
  | brif (cond : ClifValue) (nonZero zero : ClifBlock × List ClifValue)
  | ret (values : List ClifValue)
  deriving DecidableEq, Repr

structure ClifBlockData where
  params : List ClifValue
  insts : List ClifStmt
  terminator : Option ClifTerminator
  cold : Bool
  deriving DecidableEq, Repr

/-- A function: the type of every value, the blocks, and the blocks in the order they were
    inserted, the entry block first. -/
structure ClifFunction where
  types : List IntWidth
  blocks : List ClifBlockData
  layout : List ClifBlock
  deriving DecidableEq, Repr

/-! ## Words -/

/-- The predicate a condition names. -/
def IntCC.holds {n : ℕ} (cc : IntCC) (lhs rhs : BitVec n) : Bool :=
  match cc with
  | .equal => lhs == rhs
  | .notEqual => lhs != rhs
  | .signedLessThan => lhs.slt rhs
  | .signedGreaterThanOrEqual => rhs.sle lhs
  | .signedGreaterThan => rhs.slt lhs
  | .signedLessThanOrEqual => lhs.sle rhs
  | .unsignedLessThan => lhs.ult rhs
  | .unsignedGreaterThanOrEqual => rhs.ule lhs
  | .unsignedGreaterThan => rhs.ult lhs
  | .unsignedLessThanOrEqual => lhs.ule rhs

def UnaryOp.apply {n : ℕ} (op : UnaryOp) (x : BitVec n) : BitVec n :=
  match op with
  | .ineg => -x
  | .bnot => ~~~ x

/-- An operation on integers of one type; the divisions trap. The amount of a shift is masked. -/
def BinaryOp.apply {n : ℕ} (op : BinaryOp) (lhs rhs : BitVec n) : Option (BitVec n) :=
  match op with
  | .iadd => some (lhs + rhs)
  | .isub => some (lhs - rhs)
  | .imul => some (lhs * rhs)
  | .udiv => if rhs = 0 then none else some (lhs / rhs)
  | .sdiv =>
    if rhs = 0 ∨ lhs = BitVec.intMin n ∧ rhs = BitVec.allOnes n then none else some (lhs.sdiv rhs)
  | .band => some (lhs &&& rhs)
  | .bor => some (lhs ||| rhs)
  | .bxor => some (lhs ^^^ rhs)
  | .ishl => some (clifShift .shl lhs rhs)
  | .ushr => some (clifShift .zeroExtendShr lhs rhs)
  | .sshr => some (clifShift .signExtendShr lhs rhs)

/-- The same on words. The amount of a shift may be of any type. -/
def Word.binary (op : BinaryOp) (lhs rhs : Word) : Option Word :=
  match op with
  | .ishl => some ⟨lhs.width, clifShift .shl lhs.bits rhs.bits⟩
  | .ushr => some ⟨lhs.width, clifShift .zeroExtendShr lhs.bits rhs.bits⟩
  | .sshr => some ⟨lhs.width, clifShift .signExtendShr lhs.bits rhs.bits⟩
  | op =>
    if lhs.width = rhs.width then
      (op.apply lhs.bits (rhs.bits.setWidth lhs.width.bits)).map fun bits => ⟨lhs.width, bits⟩
    else none

/-- An immediate has the type of the other operand. -/
def Word.binaryImm (op : BinaryOp) (lhs : Word) (imm : BitVec 64) : Option Word :=
  (op.apply lhs.bits (imm.setWidth lhs.width.bits)).map fun bits => ⟨lhs.width, bits⟩

/-- A word as an address. -/
def Word.address (x : Word) : Option Address :=
  if x.width = .w64 then some (x.bits.setWidth 64) else none

/-! ## Instructions -/

section Run

variable {W : Type} (host : FlatHost W) (halts : ℕ → BitVec 32)

/-- The values of a run, the world, and how often the halt reason was read. -/
structure ClifState (W : Type) where
  env : ClifValue → Word
  world : W
  reads : ℕ

/-- What an instruction without effects computes, and `none` for any other. -/
def ClifInst.compute (ρ : ClifValue → Word) : ClifInst → Option (List Word)
  | .iconst ty imm => some [⟨ty, imm.setWidth ty.bits⟩]
  | .unary op arg => some [⟨(ρ arg).width, op.apply (ρ arg).bits⟩]
  | .binary op lhs rhs => (Word.binary op (ρ lhs) (ρ rhs)).map fun x => [x]
  | .binaryImm op lhs imm => (Word.binaryImm op (ρ lhs) imm).map fun x => [x]
  | .icmp cc lhs rhs =>
    if (ρ lhs).width = (ρ rhs).width then
      some [⟨.w8, clifBool (cc.holds (ρ lhs).bits ((ρ rhs).bits.setWidth _))⟩]
    else none
  | .icmpImm cc lhs imm => some [⟨.w8, clifBool (cc.holds (ρ lhs).bits (imm.setWidth _))⟩]
  | .select cond ifTrue ifFalse =>
    if (ρ ifTrue).width = (ρ ifFalse).width then
      some [if (ρ cond).bits != 0 then ρ ifTrue else ρ ifFalse]
    else none
  | .binaryOverflow op lhs rhs =>
    if (ρ lhs).width = (ρ rhs).width then
      let r := clifOverflowing op (ρ lhs).bits ((ρ rhs).bits.setWidth _)
      some [⟨(ρ lhs).width, r.1⟩, ⟨.w8, clifBool r.2⟩]
    else none
  | .uextend ty arg =>
    if (ρ arg).width.bits < ty.bits then some [⟨ty, (ρ arg).bits.setWidth ty.bits⟩] else none
  | .stackAddr slot => some [⟨.w64, host.stackAddr slot⟩]
  | _ => none

/-- What an instruction does. -/
def ClifInst.eval (s : ClifState W) (inst : ClifInst) : Option (List Word × W × ℕ) :=
  match inst with
  | .load ty _ ptr offset => do
    let base ← (s.env ptr).address
    let value ← host.load ty (base + offset.signExtend 64) s.world
    return ([⟨ty, value⟩], s.world, s.reads)
  | .store _ value ptr offset => do
    let base ← (s.env ptr).address
    let world ← host.store (s.env value).width (base + offset.signExtend 64)
        (s.env value).bits s.world
    return ([], world, s.reads)
  | .atomicLoad ty flags ptr => do
    let address ← (s.env ptr).address
    if flags.region = .haltReason then
      if address = host.haltReasonPtr ∧ ty = .w32 then
        some ([⟨.w32, halts s.reads⟩], s.world, s.reads + 1)
      else none
    else do
      let value ← host.atomicLoad ty address s.world
      return ([⟨ty, value⟩], s.world, s.reads)
  | .atomicStore _ value ptr => do
    let address ← (s.env ptr).address
    let world ← host.atomicStore (s.env value).width address (s.env value).bits s.world
    return ([], world, s.reads)
  | .atomicRmw ty flags .xchg ptr value => do
    let address ← (s.env ptr).address
    if flags.region = .haltReason ∧ address = host.haltReasonPtr ∧ ty = .w32 ∧
        (s.env value).width = .w32 then
      let (old, world) := host.swapHaltReason ((s.env value).bits.setWidth 32) s.world
      some ([⟨.w32, old⟩], world, s.reads)
    else none
  | .atomicRmw ty _ .or ptr value => do
    let address ← (s.env ptr).address
    if ty = .w8 ∧ (s.env value).width = .w8 then do
      let (old, world) ← host.fetchOr address ((s.env value).bits.setWidth 8) s.world
      return ([⟨.w8, old⟩], world, s.reads)
    else none
  | .callIndirect signature callee args => do
    let address ← (s.env callee).address
    let func ← host.codeAt address
    if (args.map s.env).map Word.width = signature.params then do
      let (results, world) ← host.call func (args.map s.env) s.world
      if results.map Word.width = signature.returns then some (results, world, s.reads) else none
    else none
  | inst => (inst.compute host s.env).map fun results => (results, s.world, s.reads)

/-- The values after some of them are bound. -/
def bindValues (ρ : ClifValue → Word) (names : List ClifValue) (words : List Word) :
    ClifValue → Word :=
  (names.zip words).foldl (fun ρ p => Function.update ρ p.1 p.2) ρ

/-- An instruction, its results bound. -/
def ClifStmt.exec (s : ClifState W) (stmt : ClifStmt) : Option (ClifState W) :=
  (stmt.inst.eval host halts s).map fun (results, world, reads) =>
    { env := bindValues s.env stmt.results results, world, reads }

/-- A list of instructions. -/
def execInsts (s : ClifState W) (insts : List ClifStmt) : Option (ClifState W) :=
  insts.foldlM (ClifStmt.exec host halts) s

/-! ## Runs -/

/-- The state of a run: the next instruction of a block or, past the last one, its terminator. -/
structure ClifConfig (W : Type) where
  block : ClifBlock
  pc : ℕ
  state : ClifState W

inductive ClifNext (W : Type)
  | step (config : ClifConfig W)
  | returned (values : List Word) (world : W)
  | stuck

namespace ClifFunction

variable (f : ClifFunction)

/-- A jump, whose arguments have the types of the parameters. -/
def takeJump (s : ClifState W) (dest : ClifBlock × List ClifValue) : ClifNext W :=
  match f.blocks[dest.1]? with
  | none => .stuck
  | some target =>
    let args := dest.2.map s.env
    if args.map (fun x => some x.width) = target.params.map (f.types[·]?) then
      .step ⟨dest.1, 0, { s with env := bindValues s.env target.params args }⟩
    else .stuck

/-- Executing a terminator. -/
def nextTerm (s : ClifState W) : ClifTerminator → ClifNext W
  | .jump dest => f.takeJump s dest
  | .brif cond nonZero zero => f.takeJump s (if (s.env cond).bits != 0 then nonZero else zero)
  | .ret values => .returned (values.map s.env) s.world

/-- One step of a run. -/
def next (c : ClifConfig W) : ClifNext W :=
  match f.blocks[c.block]? with
  | none => .stuck
  | some data =>
    match data.insts[c.pc]? with
    | some stmt =>
      match stmt.exec host halts c.state with
      | none => .stuck
      | some s => .step ⟨c.block, c.pc + 1, s⟩
    | none =>
      match data.terminator with
      | none => .stuck
      | some term => f.nextTerm c.state term

/-- A call of the function with its arguments. -/
def call (args : List Word) (world : W) (c : ClifConfig W) : Prop :=
  ∃ entry data, f.layout.head? = some entry ∧ f.blocks[entry]? = some data ∧
    args.map (fun x => some x.width) = data.params.map (f.types[·]?) ∧
    ∃ ρ, c = ⟨entry, 0, ⟨bindValues ρ data.params args, world, 0⟩⟩

/-- The runs of the function as a system. It returns one 32-bit integer. -/
def system : System (ClifConfig W) (BitVec 32 × W) where
  step c c' := f.next host halts c = .step c'
  result c r := f.next host halts c = .returned [⟨.w32, r.1⟩] r.2

theorem system_deterministic : (f.system host halts).Deterministic where
  step h h' := ClifNext.step.inj (Eq.trans (Eq.symm h) h')
  result := by
    intro c r r' h h'
    obtain ⟨hcode, hworld⟩ := ClifNext.returned.inj (Eq.trans (Eq.symm h) h')
    obtain ⟨hcode, -⟩ := List.cons.inj hcode
    exact Prod.ext (eq_of_heq (Word.mk.inj hcode).2) hworld
  final h h' := by
    have := Eq.trans (Eq.symm h) h'
    cases this

end ClifFunction

end Run

end RapidArm.Clif
