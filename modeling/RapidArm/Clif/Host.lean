import RapidArm.Jit.Integers
import RapidArm.Mmu.Memory
import RapidArm.Lib.Simulation

/-!
# A host with addresses

The meaning of the statements of the IR (`ir/mod.rs`, lines 649–826) where a host pointer is
its 64-bit address. What the memory of the host holds, what its functions do and where the
stack slots of a call lie are parameters, so that the results hold of every memory. An access
or a call that is undefined has no result.

Results:
* `eval_hasType`: a statement yields values of the types that the builder gives to its outputs.
-/

namespace RapidArm.Clif

open RapidArm.Ir RapidArm.Backend RapidArm.Mmu RapidArm.Lib RapidArm.Jit

/-! ## Words -/

/-- An integer of the host machine. -/
structure Word where
  width : IntWidth
  bits : BitVec width.bits
  deriving DecidableEq, Repr

/-- A host address. -/
abbrev Address := BitVec 64

/-- A value as it is passed to a function of the host. -/
def toWord : Val Address → Word
  | .int width value => ⟨width, value⟩
  | .bool value => ⟨.w8, clifBool value⟩
  | .ptr p => ⟨.w64, p⟩

/-- A value that a function of the host returned. -/
def Word.toVal (x : Word) : TypeFull → Option (Val Address)
  | .int width => if x.width = width then some (.int x.width x.bits) else none
  | .hostPtr _ => if x.width = .w64 then some (.ptr (x.bits.setWidth 64)) else none
  | .bool => none

/-- The value is of this type. -/
def HasType {P : Type} : Val P → TypeFull → Prop
  | .int width _, .int width' => width = width'
  | .bool _, .bool => True
  | .ptr _, .hostPtr _ => True
  | _, _ => False

instance {P : Type} (v : Val P) (ty : TypeFull) : Decidable (HasType v ty) :=
  match v, ty with
  | .int width _, .int width' => inferInstanceAs (Decidable (width = width'))
  | .bool _, .bool | .ptr _, .hostPtr _ => .isTrue trivial
  | .int _ _, .bool | .int _ _, .hostPtr _ | .bool _, .int _ | .bool _, .hostPtr _
  | .ptr _, .int _ | .ptr _, .bool => .isFalse id

/-! ## The host -/

/-- What emitted code finds around it. -/
structure FlatHost (W : Type) where
  load (width : IntWidth) : Address → W → Option (BitVec width.bits)
  store (width : IntWidth) : Address → BitVec width.bits → W → Option W
  atomicLoad (width : IntWidth) : Address → W → Option (BitVec width.bits)
  atomicStore (width : IntWidth) : Address → BitVec width.bits → W → Option W
  fetchOr : Address → BitVec 8 → W → Option (BitVec 8 × W)
  /-- The cell that other threads write halt reasons to. -/
  haltReasonPtr : Address
  swapHaltReason : BitVec 32 → W → BitVec 32 × W
  stackAddr : StackSlot → Address
  /-- Where the code of a callback is, and the callback at an address. -/
  codeAddr : HostCallback → Address
  codeAt : Address → Option HostCallback
  codeAt_codeAddr (func : HostCallback) : codeAt (codeAddr func) = some func
  call : HostCallback → List Word → W → Option (List Word × W)

variable {W : Type} (host : FlatHost W)

/-- The results of a call for the return type of its signature. -/
def callResults (ret : Option TypeFull) (results : List Word) : Option (List (Val Address)) :=
  match ret, results with
  | none, [] => some []
  | some ty, [x] => (x.toVal ty).map fun v => [v]
  | _, _ => none

/-- The statements on pointers, the memory and the halt reason. -/
def evalFlat (rvalue : StmtKind) (args : List (Val Address)) (w : W) :
    Option (List (Val Address) × W) :=
  match rvalue, args with
  | .loadHost (.int width) _ offset _, [.ptr base] =>
    (host.load width (base + BitVec.ofNat 64 offset) w).map fun value => ([.int width value], w)
  | .loadHost (.hostPtr _) _ offset _, [.ptr base] =>
    (host.load .w64 (base + BitVec.ofNat 64 offset) w).map fun p => ([.ptr p], w)
  | .storeHost _ offset _ _, [.ptr base, .int width value] =>
    (host.store width (base + BitVec.ofNat 64 offset) value w).map fun w' => ([], w')
  | .storeHost _ offset _ _, [.ptr base, .ptr p] =>
    (host.store .w64 (base + BitVec.ofNat 64 offset) p w).map fun w' => ([], w')
  | .loadStackPtr slot, [] => some ([.ptr (host.stackAddr slot)], w)
  | .ptrAdd _ _ elemSize, [.ptr base, .int _ offset] =>
    some ([.ptr (base + offset.setWidth 64 * BitVec.ofNat 64 elemSize)], w)
  | .ptrEq _ _, [.ptr a, .ptr b] => some ([.bool (a == b)], w)
  | .hasTag _ tagBits, [.ptr p] => some ([.bool (p &&& tagBits.setWidth 64 != 0)], w)
  | .untag _ tagBits, [.ptr p] => some ([.ptr (p &&& ~~~ tagBits.setWidth 64)], w)
  | .hostCallback func signature _, args =>
    if List.Forall₂ HasType args signature.args then do
      let (results, w') ← host.call func (args.map toWord) w
      let vals ← callResults signature.ret results
      return (vals, w')
    else none
  | .vmLoadRaw _ _ width _, [.ptr page, .int _ offset] =>
    (host.atomicLoad width (page + offset.setWidth 64) w).map fun value => ([.int width value], w)
  | .vmStoreRaw _ _ _ _, [.ptr page, .int _ offset, .int width value] =>
    (host.atomicStore width (page + offset.setWidth 64) value w).map fun w' => ([], w')
  | .takeHaltReason, [] =>
    let (reason, w') := host.swapHaltReason 0 w
    some ([.int .w32 reason], w')
  | .setPageDirtyFlag _, [.ptr p] => (host.fetchOr p IS_DIRTY_FLAG w).map fun r => ([], r.2)
  | .safepoint, [] => some ([], w)
  | _, _ => none

/-- The machine of this host, with the integer statements of the Cranelift backend. -/
def flatMachine : Machine where
  Val := Val Address
  World := W
  eval rvalue args w :=
    if isInteger rvalue then (evalInteger .cranelift rvalue args).map fun vals => (vals, w)
    else evalFlat host rvalue args w
  isZero
    | .int _ value => value == 0
    | .bool value => !value
    | .ptr p => p == 0
  haltReason r := .int .w32 r

/-- A run of the function as a system. Its result is the halt reason that is returned, zero for a
    plain `Return`, with the world that is left. -/
def flatSystem (ir : ExecIrBuilder) (halts : ℕ → BitVec 32) :
    System (Config (flatMachine host)) (BitVec 32 × W) where
  step c c' := ∃ e, (flatMachine host).next ir (clifCopy _) halts c = .step e c'
  result c r := r.2 = c.world ∧
    ((flatMachine host).next ir (clifCopy _) halts c = .done (.term .ret []) ∧ r.1 = 0 ∨
      ∃ v, (flatMachine host).next ir (clifCopy _) halts c =
        .done (.term (.returnCode v) [.int .w32 r.1]))

/-! ## Types -/

section Types

variable {host} {b : ExecIrBuilder} {ρ : SSAValue → Val Address}

/-- The value holds what its type in the builder says. -/
def TypedValue (b : ExecIrBuilder) (ρ : SSAValue → Val Address) (v : SSAValue) : Prop :=
  ∃ ty, b.ssaValues[v]? = some ty ∧ HasType (ρ v) ty

@[simp]
theorem hasType_int {P : Type} {width : IntWidth} {value : BitVec width.bits} {ty : TypeFull} :
    HasType (Val.int width value : Val P) ty ↔ ty = .int width := by
  cases ty <;> simp [HasType, eq_comm]

@[simp] theorem hasType_bool {P : Type} {value : Bool} {ty : TypeFull} :
    HasType (Val.bool value : Val P) ty ↔ ty = .bool := by
  cases ty <;> simp [HasType]

@[simp] theorem hasType_ptr {P : Type} {p : P} {ty : TypeFull} :
    HasType (Val.ptr p) ty ↔ ∃ region, ty = .hostPtr region := by
  cases ty <;> simp [HasType]

theorem Word.toVal_hasType {x : Word} {ty : TypeFull} {v : Val Address} (h : x.toVal ty = some v) :
    HasType v ty := by
  cases ty with
  | int width =>
    simp only [Word.toVal, Option.ite_none_right_eq_some, Option.some.injEq] at h
    obtain ⟨hwidth, rfl⟩ := h
    exact hwidth
  | bool => cases h
  | hostPtr region =>
    simp only [Word.toVal, Option.ite_none_right_eq_some, Option.some.injEq] at h
    obtain ⟨-, rfl⟩ := h
    exact trivial

theorem callResults_hasType {ret : Option TypeFull} {results : List Word}
    {vals : List (Val Address)}
    (h : callResults ret results = some vals) : List.Forall₂ HasType vals ret.toList := by
  cases ret with
  | none =>
    cases results with
    | nil =>
      obtain rfl := Option.some.inj h
      exact List.Forall₂.nil
    | cons x results => cases h
  | some ty =>
    match results with
    | [] => cases h
    | [x] =>
      obtain ⟨v, hv, rfl⟩ := Option.map_eq_some_iff.1 h
      exact List.Forall₂.cons (Word.toVal_hasType hv) List.Forall₂.nil
    | _ :: _ :: _ => cases h

theorem typeOf_operand {v : SSAValue} {ty : TypeFull} {tys : List TypeFull}
    (hget : b.ssaValues[v]? = some ty)
    (h : (do return [← arenaGet b.ssaValues v] : Except Panic (List TypeFull)) = .ok tys) :
    tys = [ty] := by
  rw [arenaGet_eq_ok.2 hget] at h
  exact (Except.ok.inj h).symm

theorem typeOf_pointer {v : SSAValue} {ty : TypeFull} {tys : List TypeFull}
    (hget : b.ssaValues[v]? = some ty)
    (h : (do
      match ← arenaGet b.ssaValues v with
      | .hostPtr r => return [.hostPtr r]
      | _ => throw .typeMismatch : Except Panic (List TypeFull)) = .ok tys) :
    ∃ region, tys = [.hostPtr region] := by
  rw [arenaGet_eq_ok.2 hget] at h
  cases ty with
  | hostPtr region => exact ⟨region, (Except.ok.inj h).symm⟩
  | int width => cases h
  | bool => cases h

theorem evalInteger_hasType {rvalue : StmtKind} {vals : List (Val Address)} {tys : List TypeFull}
    (hint : isInteger rvalue = true) (hops : ∀ v ∈ rvalue.operands, TypedValue b ρ v)
    (hselect : ∀ cond ifTrue ifFalse, rvalue = .select cond ifTrue ifFalse →
      b.ssaValues[ifTrue]? = b.ssaValues[ifFalse]?)
    (heval : evalInteger .cranelift rvalue (rvalue.operands.map ρ) = some vals)
    (htys : b.typeOf rvalue = .ok tys) : List.Forall₂ HasType vals tys := by
  cases rvalue with
  | iconst c =>
    obtain rfl := Option.some.inj heval
    obtain rfl := Except.ok.inj htys
    simp
  | arithBinOp op lhs rhs =>
    obtain ⟨ty, hget, hty⟩ := hops lhs (by simp [StmtKind.operands])
    obtain rfl := typeOf_operand hget htys
    simp only [StmtKind.operands, List.map_cons, List.map_nil] at heval
    generalize ρ lhs = x at heval hty
    generalize ρ rhs = y at heval
    cases x <;> cases y <;> simp [evalInteger] at heval
    obtain ⟨-, r, -, rfl⟩ := heval
    simpa using hty
  | intNeg value =>
    obtain ⟨ty, hget, hty⟩ := hops value (by simp [StmtKind.operands])
    obtain rfl := typeOf_operand hget htys
    simp only [StmtKind.operands, List.map_cons, List.map_nil] at heval
    generalize ρ value = x at heval hty
    cases x <;> simp [evalInteger] at heval
    subst heval
    simpa using hty
  | bitwiseImm op value imm =>
    obtain ⟨ty, hget, hty⟩ := hops value (by simp [StmtKind.operands])
    obtain rfl := typeOf_operand hget htys
    simp only [StmtKind.operands, List.map_cons, List.map_nil] at heval
    generalize ρ value = x at heval hty
    cases x <;> simp [evalInteger] at heval
    subst heval
    simpa using hty
  | bitNot value =>
    obtain ⟨ty, hget, hty⟩ := hops value (by simp [StmtKind.operands])
    obtain rfl := typeOf_operand hget htys
    simp only [StmtKind.operands, List.map_cons, List.map_nil] at heval
    generalize ρ value = x at heval hty
    cases x <;> simp [evalInteger] at heval
    all_goals
      subst heval
      simpa using hty
  | shiftImm op value amount =>
    obtain ⟨ty, hget, hty⟩ := hops value (by simp [StmtKind.operands])
    obtain rfl := typeOf_operand hget htys
    simp only [StmtKind.operands, List.map_cons, List.map_nil] at heval
    generalize ρ value = x at heval hty
    cases x <;> simp [evalInteger] at heval
    obtain ⟨r, hr, rfl⟩ := heval
    unfold shiftImm at hr
    split_ifs at hr
    obtain rfl := Option.some.inj hr
    simpa using hty
  | shift op value amount =>
    obtain ⟨ty, hget, hty⟩ := hops value (by simp [StmtKind.operands])
    obtain rfl := typeOf_operand hget htys
    simp only [StmtKind.operands, List.map_cons, List.map_nil] at heval
    generalize ρ value = x at heval hty
    generalize ρ amount = y at heval
    cases x <;> cases y <;> simp [evalInteger] at heval
    subst heval
    simpa using hty
  | shiftUnbounded op value amount =>
    obtain ⟨ty, hget, hty⟩ := hops value (by simp [StmtKind.operands])
    obtain rfl := typeOf_operand hget htys
    simp only [StmtKind.operands, List.map_cons, List.map_nil] at heval
    generalize ρ value = x at heval hty
    generalize ρ amount = y at heval
    cases x <;> cases y <;> simp [evalInteger, shiftUnbounded] at heval
    obtain rfl := heval
    simpa using hty
  | overflowingBinOp op lhs rhs =>
    obtain ⟨ty, hget, hty⟩ := hops lhs (by simp [StmtKind.operands])
    obtain rfl : tys = [ty, .bool] := by
      rw [ExecIrBuilder.typeOf, arenaGet_eq_ok.2 hget] at htys
      exact (Except.ok.inj htys).symm
    simp only [StmtKind.operands, List.map_cons, List.map_nil] at heval
    generalize ρ lhs = x at heval hty
    generalize ρ rhs = y at heval
    cases x <;> cases y <;> simp [evalInteger] at heval
    obtain ⟨-, rfl⟩ := heval
    simpa using hty
  | intCmp cmp lhs rhs =>
    obtain rfl := Except.ok.inj htys
    simp only [StmtKind.operands, List.map_cons, List.map_nil] at heval
    generalize ρ lhs = x at heval
    generalize ρ rhs = y at heval
    cases x <;> cases y <;> simp [evalInteger] at heval
    obtain ⟨-, rfl⟩ := heval
    simp
  | intCmpImm cmp lhs imm =>
    obtain rfl := Except.ok.inj htys
    simp only [StmtKind.operands, List.map_cons, List.map_nil] at heval
    generalize ρ lhs = x at heval
    cases x <;> simp [evalInteger] at heval
    subst heval
    simp
  | bitwise op lhs rhs =>
    obtain ⟨ty, hget, hty⟩ := hops lhs (by simp [StmtKind.operands])
    obtain rfl := typeOf_operand hget htys
    simp only [StmtKind.operands, List.map_cons, List.map_nil] at heval
    generalize ρ lhs = x at heval hty
    generalize ρ rhs = y at heval
    cases x <;> cases y <;> simp [evalInteger] at heval
    · obtain ⟨-, rfl⟩ := heval
      simpa using hty
    · subst heval
      simpa using hty
  | select cond ifTrue ifFalse =>
    obtain ⟨ty, hget, hty⟩ := hops ifTrue (by simp [StmtKind.operands])
    obtain ⟨ty', hget', hty'⟩ := hops ifFalse (by simp [StmtKind.operands])
    obtain rfl : ty = ty' := by
      rw [hselect cond ifTrue ifFalse rfl, hget'] at hget
      exact (Option.some.inj hget).symm
    obtain rfl := typeOf_operand hget htys
    simp only [StmtKind.operands, List.map_cons, List.map_nil] at heval
    generalize ρ cond = c at heval
    cases c <;> simp [evalInteger] at heval
    subst heval
    refine List.Forall₂.cons ?_ List.Forall₂.nil
    split_ifs
    · exact hty
    · exact hty'
  | _ => cases hint

theorem evalFlat_hasType {rvalue : StmtKind} {w w' : W} {vals : List (Val Address)}
    {tys : List TypeFull} (hops : ∀ v ∈ rvalue.operands, TypedValue b ρ v)
    (heval : evalFlat host rvalue (rvalue.operands.map ρ) w = some (vals, w'))
    (htys : b.typeOf rvalue = .ok tys) : List.Forall₂ HasType vals tys := by
  cases rvalue with
  | loadHost ty base offset canMove =>
    obtain rfl := Except.ok.inj htys
    simp only [StmtKind.operands, List.map_cons, List.map_nil] at heval
    generalize ρ base = x at heval
    cases x <;> cases ty <;> simp only [evalFlat, reduceCtorEq] at heval
    all_goals
      obtain ⟨r, -, h⟩ := Option.map_eq_some_iff.1 heval
      obtain ⟨rfl, -⟩ := Prod.mk.inj h
      simp [LoadType.toTypeFull]
  | storeHost base offset value canMove =>
    obtain rfl := Except.ok.inj htys
    simp only [StmtKind.operands, List.map_cons, List.map_nil] at heval
    generalize ρ base = x at heval
    generalize ρ value = y at heval
    cases x <;> cases y <;> simp [evalFlat] at heval
    all_goals
      obtain ⟨r, -, rfl, -⟩ := heval
      exact List.Forall₂.nil
  | loadStackPtr slot =>
    obtain rfl := Except.ok.inj htys
    obtain ⟨rfl, -⟩ := Prod.mk.inj (Option.some.inj heval)
    simp
  | ptrAdd base offset elemSize =>
    obtain ⟨ty, hget, -⟩ := hops base (by simp [StmtKind.operands])
    obtain ⟨region, rfl⟩ := typeOf_pointer hget htys
    simp only [StmtKind.operands, List.map_cons, List.map_nil] at heval
    generalize ρ base = x at heval
    generalize ρ offset = y at heval
    cases x <;> cases y <;> simp [evalFlat] at heval
    obtain ⟨rfl, -⟩ := heval
    simp
  | ptrEq a b' =>
    obtain rfl := Except.ok.inj htys
    simp only [StmtKind.operands, List.map_cons, List.map_nil] at heval
    generalize ρ a = x at heval
    generalize ρ b' = y at heval
    cases x <;> cases y <;> simp [evalFlat] at heval
    obtain ⟨rfl, -⟩ := heval
    simp
  | hasTag ptr tagBits =>
    obtain rfl := Except.ok.inj htys
    simp only [StmtKind.operands, List.map_cons, List.map_nil] at heval
    generalize ρ ptr = x at heval
    cases x <;> simp [evalFlat] at heval
    obtain ⟨rfl, -⟩ := heval
    simp
  | untag ptr tagBits =>
    obtain ⟨ty, hget, -⟩ := hops ptr (by simp [StmtKind.operands])
    obtain ⟨region, rfl⟩ := typeOf_pointer hget htys
    simp only [StmtKind.operands, List.map_cons, List.map_nil] at heval
    generalize ρ ptr = x at heval
    cases x <;> simp [evalFlat] at heval
    obtain ⟨rfl, -⟩ := heval
    simp
  | hostCallback func signature args =>
    obtain rfl := Except.ok.inj htys
    simp only [evalFlat] at heval
    split_ifs at heval
    obtain ⟨⟨results, w₁⟩, -, h⟩ := Option.bind_eq_some_iff.1 heval
    obtain ⟨vals', hvals, h⟩ := Option.bind_eq_some_iff.1 h
    obtain ⟨rfl, -⟩ := Prod.mk.inj (Option.some.inj h)
    exact callResults_hasType hvals
  | vmLoadRaw page offset width seqCst =>
    obtain rfl := Except.ok.inj htys
    simp only [StmtKind.operands, List.map_cons, List.map_nil] at heval
    generalize ρ page = x at heval
    generalize ρ offset = y at heval
    cases x <;> cases y <;> simp [evalFlat] at heval
    obtain ⟨r, -, rfl, -⟩ := heval
    simp
  | vmStoreRaw page offset value seqCst =>
    obtain rfl := Except.ok.inj htys
    simp only [StmtKind.operands, List.map_cons, List.map_nil] at heval
    generalize ρ page = x at heval
    generalize ρ offset = y at heval
    generalize ρ value = z at heval
    cases x <;> cases y <;> cases z <;> simp [evalFlat] at heval
    obtain ⟨r, -, rfl, -⟩ := heval
    exact List.Forall₂.nil
  | takeHaltReason =>
    obtain rfl := Except.ok.inj htys
    obtain ⟨rfl, -⟩ := Prod.mk.inj (Option.some.inj heval)
    exact List.Forall₂.cons rfl List.Forall₂.nil
  | setPageDirtyFlag ptr =>
    obtain rfl := Except.ok.inj htys
    simp only [StmtKind.operands, List.map_cons, List.map_nil] at heval
    generalize ρ ptr = x at heval
    cases x <;> simp [evalFlat] at heval
    obtain ⟨r, -, rfl, -⟩ := heval
    exact List.Forall₂.nil
  | safepoint =>
    obtain rfl := Except.ok.inj htys
    obtain ⟨rfl, -⟩ := Prod.mk.inj (Option.some.inj heval)
    exact List.Forall₂.nil
  | _ => simp [evalFlat] at heval

/-- A statement yields values of the types of its outputs. -/
theorem eval_hasType {rvalue : StmtKind} {w w' : W} {vals : List (Val Address)}
    {tys : List TypeFull} (hops : ∀ v ∈ rvalue.operands, TypedValue b ρ v)
    (hselect : ∀ cond ifTrue ifFalse, rvalue = .select cond ifTrue ifFalse →
      b.ssaValues[ifTrue]? = b.ssaValues[ifFalse]?)
    (heval : (flatMachine host).eval rvalue (rvalue.operands.map ρ) w = some (vals, w'))
    (htys : b.typeOf rvalue = .ok tys) : List.Forall₂ HasType vals tys := by
  simp only [flatMachine] at heval
  split_ifs at heval with hint
  · obtain ⟨vals', heval', hvals⟩ := Option.map_eq_some_iff.1 heval
    obtain ⟨rfl, -⟩ := Prod.mk.inj hvals
    exact evalInteger_hasType hint hops hselect heval' htys
  · exact evalFlat_hasType hops heval htys

end Types

end RapidArm.Clif
