import RapidArm.Jit.Computes
import RapidArm.Jit.Host

/-!
# What the emitters of single operations compute

One triple for each method of `Jit.Emitters`, over the host. The operands are among the facts,
and the result is a new fact. `Delivers` says the same of one place in a builder, without facts.

Results:
* `computes_integer`: the triple of an integer statement with one result.
* `Computes.delivers`: from a triple to what the code does where it was emitted.
-/

namespace RapidArm.Jit

open RapidArm.Ir RapidArm.Lib RapidArm.Backend ExecIrBuilder

/-! ## Facts of the host -/

section Facts

variable (L : Layout) (backend : JitBackend)
  (other : StmtKind → List (Val HostPtr) → HostState → Option (List (Val HostPtr) × HostState))

/-- What is known of a value of emitted code. -/
abbrev HostFact := Fact (hostMachine L backend other)

variable {L backend other}

/-- The value `v` is an integer. -/
def IsInt (v : SSAValue) (width : IntWidth) (x : BitVec width.bits) : HostFact L backend other :=
  ⟨v, .int width, Val.int width x⟩

/-- The value `v` is a boolean. -/
def IsBool (v : SSAValue) (p : Bool) : HostFact L backend other := ⟨v, .bool, Val.bool p⟩

/-- The value `v` is a pointer. -/
def IsPtr (v : SSAValue) (region : AliasRegion) (p : HostPtr) : HostFact L backend other :=
  ⟨v, .hostPtr region, Val.ptr p⟩

end Facts

section Operations

variable {L : Layout} {backend : JitBackend}
  {other : StmtKind → List (Val HostPtr) → HostState → Option (List (Val HostPtr) × HostState)}
  {B : Set Block} {K : List (HostFact L backend other)} {s : HostState}

/-! ## Statements -/

theorem eval_of_isInteger {rvalue : StmtKind} (h : isInteger rvalue = true)
    (args : List (Val HostPtr))
    (s : HostState) : (hostMachine L backend other).eval rvalue args s =
      (evalInteger backend rvalue args).map fun vals => (vals, s) :=
  if_pos h

theorem forall_mem_pair {f g : HostFact L backend other} (hf : f ∈ K) (hg : g ∈ K) :
    ∀ h ∈ [f, g], h ∈ K :=
  List.forall_mem_cons.2 ⟨hf, List.forall_mem_singleton.2 hg⟩

/-- An integer statement with one result. -/
theorem computes_integer {rvalue : StmtKind} {ty : TypeFull} {x : Val HostPtr}
    (args : List (HostFact L backend other)) (hargs : ∀ f ∈ args, f ∈ K)
    (hops : rvalue.operands = args.map Fact.value) (hint : isInteger rvalue = true)
    (hty : ∀ b, Typed K b → b.typeOf rvalue = .ok [ty])
    (heval : evalInteger backend rvalue (args.map Fact.val) = some [x]) :
    Computes B K s (emit1RetStmt rvalue) (fun v => [⟨v, ty, x⟩]) s := by
  refine Computes.emit1 args hargs hops ?_ hty ?_
  · rintro rfl
    cases hint
  · refine (eval_of_isInteger hint _ s).trans ?_
    exact congrArg (Option.map fun vals => (vals, s)) heval

/-- The type of the first operand. -/
theorem typeOf_first {b : ExecIrBuilder} {v : SSAValue} {ty : TypeFull}
    (h : b.ssaValues[v]? = some ty) :
    (do return [← arenaGet b.ssaValues v] : Except Panic (List TypeFull)) = .ok [ty] :=
  bind_eq_ok.2 ⟨ty, arenaGet_eq_ok.2 h, rfl⟩

theorem computes_iconst {width : IntWidth} {bits : BitVec 64} {x : BitVec width.bits}
    (hx : bits.setWidth width.bits = x) :
    Computes B K s (iconst ⟨width, bits⟩) (fun v => [IsInt v width x]) s := by
  subst hx
  exact computes_integer [] (fun f hf => by cases hf) rfl rfl (fun _ _ => rfl) rfl

/-- `IConst::zero` and `IConst::one` at their width. -/
theorem zero_bits (width : IntWidth) : (IConst.zero width).bits.setWidth width.bits = 0 := by
  cases width <;> rfl

theorem one_bits (width : IntWidth) : (IConst.one width).bits.setWidth width.bits = 1 := by
  cases width <;> rfl

theorem Computes.sameIntTy_bind {α : Type} {l r : SSAValue} {width : IntWidth}
    {x y : BitVec width.bits} {func : IntWidth → BuilderM α}
    {facts : α → List (HostFact L backend other)} {s' : HostState} (hl : IsInt l width x ∈ K)
    (hr : IsInt r width y ∈ K) (hf : Computes B K s (func width) facts s') :
    Computes B K s (emitSameIntTyBinop l r func) facts s' :=
  Computes.assertInt_bind hr (Computes.assertInt_bind hl (Computes.check_bind rfl hf))

theorem computes_icmp {cmp : IntCmp} {l r : SSAValue} {width : IntWidth} {x y : BitVec width.bits}
    (hl : IsInt l width x ∈ K) (hr : IsInt r width y ∈ K) :
    Computes B K s (icmp cmp l r) (fun v => [IsBool v (intCmp cmp x y)]) s := by
  refine Computes.sameIntTy_bind hl hr ?_
  refine computes_integer [IsInt l width x, IsInt r width y] (forall_mem_pair hl hr) rfl rfl
    (fun _ _ => rfl) ?_
  show (if width = width then _ else none) = _
  rw [if_pos rfl, BitVec.setWidth_eq]

theorem computes_icmpImm {c : IntCmp} {l : SSAValue} {width : IntWidth} {bits : BitVec 64}
    {x y : BitVec width.bits} (hl : IsInt l width x ∈ K) (hy : bits.setWidth width.bits = y) :
    Computes B K s (icmpImm c l ⟨width, bits⟩) (fun v => [IsBool v (intCmp c x y)]) s := by
  subst hy
  refine Computes.assertInt_bind hl (Computes.check_bind rfl ?_)
  exact computes_integer [IsInt l width x] (List.forall_mem_singleton.2 hl) rfl rfl
    (fun _ _ => rfl) rfl

theorem computes_select {cond t f : SSAValue} {p : Bool} {width : IntWidth}
    {x y : BitVec width.bits} (hc : IsBool cond p ∈ K) (ht : IsInt t width x ∈ K)
    (hf : IsInt f width y ∈ K) :
    Computes B K s (select cond t f) (fun v => [IsInt v width (if p then x else y)]) s := by
  refine Computes.tyOf_bind hc (Computes.check_bind rfl ?_)
  refine Computes.tyOf_bind ht (Computes.tyOf_bind hf (Computes.check_bind rfl ?_))
  refine computes_integer [IsBool cond p, IsInt t width x, IsInt f width y]
    (List.forall_mem_cons.2 ⟨hc, forall_mem_pair ht hf⟩) rfl rfl
    (fun b hK => typeOf_first (hK _ ht)) ?_
  cases p <;> rfl

theorem computes_bitwiseBool {op : BitwiseOp} {l r : SSAValue} {p q : Bool}
    (hl : IsBool l p ∈ K) (hr : IsBool r q ∈ K) :
    Computes B K s (emitBitwise op l r) (fun v => [IsBool v (BitwiseOp.onBool op p q)]) s := by
  refine Computes.tyOf_bind hl (Computes.tyOf_bind hr ?_)
  refine computes_integer [IsBool l p, IsBool r q] (forall_mem_pair hl hr) rfl rfl
    (fun b hK => typeOf_first (hK _ hl)) rfl

theorem computes_bitwiseInt {op : BitwiseOp} {l r : SSAValue} {width : IntWidth}
    {x y : BitVec width.bits} (hl : IsInt l width x ∈ K) (hr : IsInt r width y ∈ K) :
    Computes B K s (emitBitwise op l r) (fun v => [IsInt v width (bitwiseResult op x y)]) s := by
  refine Computes.tyOf_bind hl (Computes.tyOf_bind hr (Computes.check_bind rfl ?_))
  refine computes_integer [IsInt l width x, IsInt r width y] (forall_mem_pair hl hr) rfl rfl
    (fun b hK => typeOf_first (hK _ hl)) ?_
  show (if width = width then _ else none) = _
  rw [if_pos rfl, BitVec.setWidth_eq]

theorem computes_bitandImm {l : SSAValue} {width : IntWidth} {bits : BitVec 64}
    {x y : BitVec width.bits} (hl : IsInt l width x ∈ K) (hy : bits.setWidth width.bits = y) :
    Computes B K s (bitandImm l ⟨width, bits⟩) (fun v => [IsInt v width (x &&& y)]) s := by
  subst hy
  refine Computes.tyOf_bind hl (Computes.check_bind rfl ?_)
  exact computes_integer [IsInt l width x] (List.forall_mem_singleton.2 hl) rfl rfl
    (fun b hK => typeOf_first (hK _ hl)) rfl

/-- An arithmetic statement on inputs for which it is defined. -/
theorem computes_arith {op : ArithBinOp} {l r : SSAValue} {width : IntWidth}
    {x y q : BitVec width.bits} (hl : IsInt l width x ∈ K) (hr : IsInt r width y ∈ K)
    (hq : arithResult op x y = some q) :
    Computes B K s (emit1RetStmt (.arithBinOp op l r)) (fun v => [IsInt v width q]) s := by
  refine computes_integer [IsInt l width x, IsInt r width y] (forall_mem_pair hl hr) rfl rfl
    (fun b hK => typeOf_first (hK _ hl)) ?_
  show (if width = width then _ else none) = _
  rw [if_pos rfl, BitVec.setWidth_eq, hq]
  rfl

/-! ## Tests -/

theorem computes_assertBool {cond : SSAValue} {p expected : Bool} {fail : Block} (hfail : fail ∈ B)
    (hcond : IsBool cond p ∈ K) (hp : p = expected) :
    Computes B K s (assertOrJmpTo cond expected fail) (fun _ => []) s := by
  subst hp
  exact computes_assert hfail hcond (by nofun) rfl

theorem leaves_assertBool {cond : SSAValue} {p expected : Bool} {fail : Block} (hfail : fail ∈ B)
    (hcond : IsBool cond p ∈ K) (hp : p ≠ expected) :
    Leaves B K s (assertOrJmpTo cond expected fail) fail s := by
  refine leaves_assert hfail hcond ?_
  show (!p) = expected
  cases p <;> cases expected <;> first | rfl | exact (hp rfl).elim

/-! ## Host memory -/

theorem eval_of_host {rvalue : StmtKind} {args : List (Val HostPtr)}
    {r : Option (List (Val HostPtr) × HostState)} (hint : isInteger rvalue = false)
    (h : evalHost L rvalue args s = some r) :
    (hostMachine L backend other).eval rvalue args s = r := by
  have heval : (hostMachine L backend other).eval rvalue args s =
      if isInteger rvalue then (evalInteger backend rvalue args).map fun vals => (vals, s)
      else (evalHost L rvalue args s).getD (other rvalue args s) := rfl
  rw [heval, hint, h]
  rfl

theorem computes_loadHost {ty : LoadType} {ptr : SSAValue} {offset : ℕ} {canMove : Bool}
    {region : AliasRegion} {p : HostPtr} {x : Val HostPtr} (hp : IsPtr ptr region p ∈ K)
    (hload : loadHost L s ty p offset = some x) :
    Computes B K s (emit1RetStmt (.loadHost ty ptr offset canMove)) (fun v =>
      [⟨v, ty.toTypeFull, x⟩]) s := by
  refine Computes.emit1 [IsPtr ptr region p] (List.forall_mem_singleton.2 hp) rfl (by nofun)
    (fun _ _ => rfl) (eval_of_host rfl ?_)
  exact congrArg (fun o => some (Option.map (fun value => ([value], s)) o)) hload

theorem computes_storeHost {ptr value : SSAValue} {offset : ℕ} {canMove : Bool}
    {region : AliasRegion} {p : HostPtr} {ty : TypeFull} {x : Val HostPtr} {s' : HostState}
    (hp : IsPtr ptr region p ∈ K) (hv : ⟨value, ty, x⟩ ∈ K)
    (hstore : storeHost L s p offset x = some s') :
    Computes B K s (emitVoidStmt (.storeHost ptr offset value canMove)) (fun _ => []) s' := by
  refine Computes.void [IsPtr ptr region p, ⟨value, ty, x⟩] (forall_mem_pair hp hv) rfl (by nofun)
    (fun _ _ => rfl) (eval_of_host rfl ?_)
  exact congrArg (fun o => some (Option.map (fun s' => ([], s')) o)) hstore

theorem computes_ptrEq {l r : SSAValue} {region region' : AliasRegion} {p q : HostPtr}
    (hl : IsPtr l region p ∈ K) (hr : IsPtr r region' q ∈ K) :
    Computes B K s (emit1RetStmt (.ptrEq l r)) (fun v => [IsBool v (decide (p = q))]) s :=
  Computes.emit1 [IsPtr l region p, IsPtr r region' q] (forall_mem_pair hl hr) rfl (by nofun)
    (fun _ _ => rfl) (eval_of_host rfl rfl)

/-- The address of an entry of the TLB. -/
theorem computes_tlbEntryPtr {base index : SSAValue} {i : BitVec 64} (hb : IsPtr base .tlb .tlb ∈ K)
    (hi : IsInt index .w64 i ∈ K) :
    Computes B K s (emit1RetStmt (.ptrAdd base index L.tlbEntrySize))
      (fun v => [IsPtr v .tlb (.tlbEntry i.toNat)]) s := by
  refine Computes.emit1 [IsPtr base .tlb .tlb, IsInt index .w64 i] (forall_mem_pair hb hi)
    rfl (by nofun)
    ?_ (eval_of_host rfl ?_)
  · exact fun b hK => bind_eq_ok.2 ⟨.hostPtr .tlb, arenaGet_eq_ok.2 (hK _ hb), rfl⟩
  · exact congrArg some (if_pos rfl)

/-! ## Places in a builder -/

/-- A call does not change the types of the values there are. -/
theorem ssaValues_of_call {b b' : ExecIrBuilder} (h : Call b b') :
    b.ssaValues <+: b'.ssaValues := by
  cases h with
  | createBlock run => exact (createBlock_spec ∅ run).1.ssaValues
  | switchTo block valid run => exact (switchTo_spec ∅ run).1.ssaValues
  | markBlockBold block run => exact (markBlockBold_spec ∅ run).1.ssaValues
  | terminateBlock block t targets operands run =>
    obtain ⟨t', data, -, -, -, -, rfl⟩ := terminateBlock_eq_ok run
    exact List.prefix_refl _
  | addBlockParameterAt block ty run =>
    obtain ⟨data, -, hb'⟩ := bind_eq_ok.1 run
    obtain ⟨-, rfl⟩ := Prod.mk.inj (Except.ok.inj hb')
    exact List.prefix_append _ _
  | emitStmtFull n rvalue operands load take run =>
    obtain ⟨tys, data, -, -, -, -, rfl⟩ := emitStmtFull_eq_ok run
    exact List.prefix_append _ _
  | createStackSlot size align run =>
    obtain ⟨-, -, hb'⟩ := bind_eq_ok.1 run
    obtain ⟨-, rfl⟩ := Prod.mk.inj (Except.ok.inj hb')
    exact List.prefix_refl _
  | scratchSpace slot run =>
    subst run
    exact List.prefix_refl _

/-- The arguments of a function are its first values. -/
theorem arg_ty_of_built {b : ExecIrBuilder} (h : Built b) (arg : Arg) :
    b.ssaValues[arg.asSSAValue]? = some arg.ty := by
  induction h with
  | withConfig haltCheckEvery => cases arg <;> rfl
  | call _ hcall ih => exact getElem?_of_isPrefix (ssaValues_of_call hcall) ih

/-- A builder that has emitted two constants, the values 6 and 7. -/
def twoConstants (lhs rhs : IConst) : ExecIrBuilder :=
  let b := ExecIrBuilder.withConfig ⟨1024, by decide, by decide⟩
  match (do let _ ← iconst lhs; iconst rhs : BuilderM SSAValue) b with
  | .ok (_, b') => b'
  | .error _ => b

theorem isOpen_twoConstants (lhs rhs : IConst) : IsOpen (twoConstants lhs rhs) :=
  ⟨2, _, rfl, rfl, rfl⟩

theorem built_twoConstants (lhs rhs : IConst) : Built (twoConstants lhs rhs) := by
  refine .call (.call (.withConfig ⟨1024, by decide, by decide⟩)
    (.emitStmtFull 1 (.iconst lhs) ?_ (by nofun) (by nofun) rfl))
    (.emitStmtFull 1 (.iconst rhs) ?_ (by nofun) (by nofun) rfl)
  · intro v hv
    cases hv
  · intro v hv
    cases hv

/-- The emitter `m` does not panic at `b`, and in every function that other emitters make of the
    result, a run from where it began to emit, with the values `inputs` and the world `s`, gets to
    where it stopped, with what it knew before; `post` holds there. -/
def Delivers (L : Layout) (backend : JitBackend)
    (other : StmtKind → List (Val HostPtr) → HostState → Option (List (Val HostPtr) × HostState))
    {α : Type} (m : BuilderM α) (b : ExecIrBuilder) (inputs : List (HostFact L backend other))
    (s : HostState) (post : (ℕ → BitVec 32) → ExecIrBuilder → α →
      Config (hostMachine L backend other) → Config (hostMachine L backend other) → Prop) : Prop :=
  ∃ a b', m b = .ok (a, b') ∧ ∀ halts F, Emitted Set.univ b' F → ∀ c, At b c →
    (∀ f ∈ inputs, c.env f.value = f.val) → c.world = s →
      ∃ c', Follows backend halts F b c b' c' ∧ post halts F a c c'

theorem Computes.delivers {α : Type} {m : BuilderM α} {facts : α → List (HostFact L backend other)}
    {s' : HostState} (h : Computes ∅ K s m facts s') {b : ExecIrBuilder} (hopen : IsOpen b)
    (hK : Typed K b) :
    Delivers L backend other m b K s fun _ _ a _ c' =>
      (∀ f ∈ facts a, c'.env f.value = f.val) ∧ c'.world = s' := by
  have hexist : Exist ∅ b := fun _ hmem => hmem.elim
  obtain ⟨⟨a, b'⟩, hm⟩ := h.total hopen hexist hK
  refine ⟨a, b', hm, fun halts F hF c hat hvals hw => ?_⟩
  obtain ⟨c', hfollow, hknow, hw'⟩ := h.runs hm hexist backend halts F hF hat
    (fun f hf => ⟨hK f hf, hvals f hf⟩) hw
  exact ⟨c', hfollow, fun f hf => (hknow f hf).2, hw'⟩

theorem Delivers.mono {α : Type} {m : BuilderM α} {b : ExecIrBuilder}
    {post post' : (ℕ → BitVec 32) → ExecIrBuilder → α → Config (hostMachine L backend other) →
      Config (hostMachine L backend other) → Prop} (h : Delivers L backend other m b K s post)
    (hpost : ∀ halts F a c c', Reaches (hostMachine L backend other) backend halts F c c' →
      post halts F a c c' → post' halts F a c c') :
    Delivers L backend other m b K s post' := by
  obtain ⟨a, b', hm, hrun⟩ := h
  refine ⟨a, b', hm, fun halts F hF c hat hvals hw => ?_⟩
  obtain ⟨c', hfollow, hend⟩ := hrun halts F hF c hat hvals hw
  exact ⟨c', hfollow, hpost halts F a c c' hfollow.reaches hend⟩

end Operations

end RapidArm.Jit
