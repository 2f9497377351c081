import RapidArm.Jit.Operations

/-!
# Division

`ExecIrBuilder::udiv` and `ExecIrBuilder::sdiv` (`jit-compiler-core/src/ir/mod.rs`, lines
1969–2041). Both arms of a `select` are evaluated, so the emitted code divides by 1 where the
division statement is undefined.

Results:
* `division_exact`: at every width and for all operands the code gets to its end, no division
  statement on the way is undefined, and the result is the quotient (`udivMeaning`,
  `sdivMeaning`).
-/

namespace RapidArm.Jit

open RapidArm.Ir RapidArm.Lib RapidArm.Backend ExecIrBuilder

/-! ## Meaning -/

/-- The documented result of `udiv`. -/
def udivMeaning {n : ℕ} (lhs rhs : BitVec n) : BitVec n :=
  if rhs = 0 then 0 else BitVec.ofNat n (lhs.toNat / rhs.toNat)

/-- The documented result of `sdiv`: `Int.tdiv` truncates toward zero. -/
def sdivMeaning {n : ℕ} (lhs rhs : BitVec n) : BitVec n :=
  if rhs = 0 then 0
  else if lhs = BitVec.intMin n ∧ rhs = -1 then BitVec.intMin n
  else BitVec.ofInt n (lhs.toInt.tdiv rhs.toInt)

/-- The next statement of a run is the division `op` of `x` by `y`. -/
def NextDivision {M : Machine} (F : ExecIrBuilder) (c : Config M) (op : ArithBinOp)
    (x y : M.Val) : Prop :=
  ∃ data stmt l r outputs, F.blocks[c.block]? = some data ∧ data.stmts[c.pc]? = some stmt ∧
    F.stmts[stmt]? = some ⟨outputs, .arithBinOp op l r⟩ ∧ c.env l = x ∧ c.env r = y

/-- No division on the way of a run is undefined: the divisor is not zero, and a signed division
    is not `MIN / -1`. -/
def DivisionsDefined {L : Layout} {backend : JitBackend}
    {other : StmtKind → List (Val HostPtr) → HostState → Option (List (Val HostPtr) × HostState)}
    (halts : ℕ → BitVec 32) (F : ExecIrBuilder)
    (c c' : Config (hostMachine L backend other)) : Prop :=
  ∀ c₁ op width (x y : BitVec width.bits),
    Reaches (hostMachine L backend other) backend halts F c c₁ →
    Reaches (hostMachine L backend other) backend halts F c₁ c' → c₁ ≠ c' →
    NextDivision F c₁ op (Val.int width x) (Val.int width y) →
      (op = .uncheckedUDiv ∨ op = .uncheckedSDiv → y ≠ 0) ∧
      (op = .uncheckedSDiv → ¬ (x = BitVec.intMin width.bits ∧ y = -1))

/-! ## The guards -/

theorem minNegative_bits (width : IntWidth) :
    (minNegative width).bits.setWidth width.bits = BitVec.intMin width.bits := by
  cases width <;> decide

theorem negativeOne_bits (width : IntWidth) :
    (negativeOne width).bits.setWidth width.bits = BitVec.allOnes width.bits := by
  cases width <;> decide

theorem one_ne_zero_bits (width : IntWidth) : (1 : BitVec width.bits) ≠ 0 := by
  cases width <;> decide

theorem one_ne_allOnes (width : IntWidth) :
    (1 : BitVec width.bits) ≠ BitVec.allOnes width.bits := by
  cases width <;> decide

/-! ## The emitted code -/

section Code

variable {L : Layout} {backend : JitBackend}
  {other : StmtKind → List (Val HostPtr) → HostState → Option (List (Val HostPtr) × HostState)}
  {B : Set Block} {K : List (HostFact L backend other)} {s : HostState} {l r : SSAValue}
  {width : IntWidth} {x y : BitVec width.bits}

theorem udiv_guarded (x y : BitVec width.bits) :
    ∃ q, arithResult .uncheckedUDiv x (if intCmp .equal y 0 then 1 else y) = some q ∧
      (if intCmp .equal y 0 then 0 else q) = udivMeaning x y := by
  unfold arithResult udivMeaning
  by_cases hy : y = 0
  · have hguard : intCmp .equal y 0 = true := beq_iff_eq.2 hy
    refine ⟨x / 1, ?_, ?_⟩
    · rw [if_pos hguard]
      exact if_neg (one_ne_zero_bits width)
    · rw [if_pos hguard, if_pos hy]
  · have hguard : ¬ intCmp .equal y 0 = true := fun h => hy (beq_iff_eq.1 h)
    refine ⟨x / y, ?_, ?_⟩
    · rw [if_neg hguard]
      exact if_neg hy
    · rw [if_neg hguard, if_neg hy, BitVec.udiv_def]

theorem computes_udiv (hl : IsInt l width x ∈ K) (hr : IsInt r width y ∈ K) :
    Computes B K s (udiv l r) (fun v => [IsInt v width (udivMeaning x y)]) s := by
  obtain ⟨q, hq, hresult⟩ := udiv_guarded x y
  refine Computes.sameIntTy_bind hl hr ?_
  refine (computes_iconst (zero_bits width)).bind fun zeroVal => ?_
  refine (computes_iconst (one_bits width)).bind fun one => ?_
  refine (computes_icmpImm (x := y) (by simp [hr]) (zero_bits width)).bind fun rhsIsZero => ?_
  refine (computes_select (p := intCmp .equal y 0) (x := 1) (y := y) (by simp) (by simp)
    (by simp [hr])).bind fun safeRhs => ?_
  refine (computes_arith (x := x) (by simp [hl]) (by simp) hq).bind fun quotient => ?_
  rw [← hresult]
  exact computes_select (by simp) (by simp) (by simp)

/-- Where `sdiv` divides by 1 instead. -/
def useSafeRhs (x y : BitVec width.bits) : Bool :=
  BitwiseOp.onBool .or (intCmp .equal y 0)
    (BitwiseOp.onBool .and (intCmp .equal x (BitVec.intMin width.bits))
      (intCmp .equal y (BitVec.allOnes width.bits)))

theorem useSafeRhs_iff : useSafeRhs x y = true ↔
    y = 0 ∨ x = BitVec.intMin width.bits ∧ y = BitVec.allOnes width.bits := by
  simp [useSafeRhs, BitwiseOp.onBool, intCmp]

theorem sdiv_guarded (x y : BitVec width.bits) :
    ∃ q, arithResult .uncheckedSDiv x (if useSafeRhs x y then 1 else y) = some q ∧
      (if intCmp .equal y 0 then 0 else q) = sdivMeaning x y := by
  have hzero : intCmp .equal y 0 = true ↔ y = 0 := beq_iff_eq
  unfold arithResult sdivMeaning
  by_cases hsafe : useSafeRhs x y = true
  · refine ⟨x, ?_, ?_⟩
    · have hone : ¬ ((1 : BitVec width.bits) = 0 ∨
          x = BitVec.intMin width.bits ∧ (1 : BitVec width.bits) = BitVec.allOnes width.bits) := by
        rintro (h | ⟨-, h⟩)
        · exact one_ne_zero_bits width h
        · exact one_ne_allOnes width h
      rw [if_pos hsafe]
      show (if _ then none else some (x.sdiv 1)) = _
      rw [if_neg hone]
      exact congrArg some BitVec.sdiv_one
    · by_cases hy : y = 0
      · rw [if_pos (hzero.2 hy), if_pos hy]
      · obtain ⟨hx, hy'⟩ := (useSafeRhs_iff.1 hsafe).resolve_left hy
        rw [if_neg (fun h => hy (hzero.1 h)), if_neg hy,
          if_pos ⟨hx, hy'.trans BitVec.neg_one_eq_allOnes.symm⟩]
        exact hx
  · have hdefined := fun h => hsafe (useSafeRhs_iff.2 h)
    have hy : y ≠ 0 := fun h => hdefined (.inl h)
    refine ⟨x.sdiv y, ?_, ?_⟩
    · rw [if_neg hsafe]
      exact if_neg hdefined
    · rw [if_neg (fun h => hy (hzero.1 h)), if_neg hy,
        if_neg fun h => hdefined (.inr ⟨h.1, h.2.trans BitVec.neg_one_eq_allOnes⟩)]
      apply BitVec.eq_of_toInt_eq
      rw [BitVec.toInt_sdiv, BitVec.toInt_ofInt]

theorem computes_sdiv (hl : IsInt l width x ∈ K) (hr : IsInt r width y ∈ K) :
    Computes B K s (sdiv l r) (fun v => [IsInt v width (sdivMeaning x y)]) s := by
  obtain ⟨q, hq, hresult⟩ := sdiv_guarded x y
  refine Computes.sameIntTy_bind hl hr ?_
  refine (computes_iconst (zero_bits width)).bind fun zeroVal => ?_
  refine (computes_iconst (one_bits width)).bind fun one => ?_
  refine (computes_icmpImm (x := y) (by simp [hr]) (zero_bits width)).bind fun rhsIsZero => ?_
  refine (computes_icmpImm (x := x) (by simp [hl]) (minNegative_bits width)).bind fun lhsIsMin => ?_
  refine (computes_icmpImm (x := y) (by simp [hr]) (negativeOne_bits width)).bind
    fun rhsIsMinusOne => ?_
  refine (computes_bitwiseBool (p := intCmp .equal x (BitVec.intMin width.bits))
    (q := intCmp .equal y (BitVec.allOnes width.bits)) (by simp) (by simp)).bind fun isOverflow =>
      ?_
  refine (computes_bitwiseBool (p := intCmp .equal y 0) (by simp) (List.mem_append_left _
    (List.mem_singleton.2 rfl))).bind fun useSafe => ?_
  refine (computes_select (p := useSafeRhs x y) (x := 1) (y := y) (List.mem_append_left _
    (List.mem_singleton.2 rfl)) (by simp) (by simp [hr])).bind fun safeRhs => ?_
  refine (computes_arith (x := x) (by simp [hl]) (by simp) hq).bind fun quotient => ?_
  rw [← hresult]
  exact computes_select (by simp) (by simp) (by simp)

end Code

/-! ## Definedness -/

/-- The division that a run executes next is defined. -/
theorem division_defined {L : Layout} {backend : JitBackend}
    {other : StmtKind → List (Val HostPtr) → HostState → Option (List (Val HostPtr) × HostState)}
    {F : ExecIrBuilder} {halts : ℕ → BitVec 32} {c c' : Config (hostMachine L backend other)}
    (hreach : Reaches (hostMachine L backend other) backend halts F c c') (hne : c ≠ c')
    {op : ArithBinOp} {width : IntWidth} {x y : BitVec width.bits}
    (hnext : NextDivision F c op (Val.int width x) (Val.int width y)) :
    (arithResult op x y).isSome := by
  rcases Relation.ReflTransGen.cases_head hreach with rfl | ⟨c₁, ⟨e, hstep⟩, -⟩
  · exact (hne rfl).elim
  · obtain ⟨data, stmt, l, r, outputs, hdata, hstmt, hget, hl, hr⟩ := hnext
    rcases hq : arithResult op x y with _ | q
    · have hargs : (StmtKind.arithBinOp op l r).operands.map c.env =
          [Val.int width x, Val.int width y] :=
        congrArg₂ (fun a b => [a, b]) hl hr
      have hnone : evalInteger (P := HostPtr) backend (.arithBinOp op l r)
          [.int width x, .int width y] = none := by
        show (if width = width then _ else none) = _
        rw [if_pos rfl, BitVec.setWidth_eq, hq]
        rfl
      have heval : (hostMachine L backend other).eval (.arithBinOp op l r)
          ((StmtKind.arithBinOp op l r).operands.map c.env) c.world = none := by
        rw [hargs]
        refine (eval_of_isInteger rfl _ _).trans ?_
        rw [hnone]
        rfl
      rw [next_of_stmt _ _ _ hdata hstmt, nextStmt_of_ne _ hget (by nofun)] at hstep
      simp only [heval] at hstep
      cases hstep
    · rfl

theorem divisionsDefined {L : Layout} {backend : JitBackend}
    {other : StmtKind → List (Val HostPtr) → HostState → Option (List (Val HostPtr) × HostState)}
    (halts : ℕ → BitVec 32) (F : ExecIrBuilder) (c c' : Config (hostMachine L backend other)) :
    DivisionsDefined halts F c c' := by
  intro c₁ op width x y _ hreach hne hnext
  have hsome := division_defined hreach hne hnext
  constructor
  · rintro (rfl | rfl) rfl
    · cases hsome
    · cases hsome
  · rintro rfl ⟨hx, hy⟩
    have hnone : arithResult .uncheckedSDiv x y = none :=
      if_pos (.inr ⟨hx, hy.trans BitVec.neg_one_eq_allOnes⟩)
    rw [hnone] at hsome
    cases hsome

/-! ## The result -/

/-- `udiv` and `sdiv` compute the quotient for all operands, and evaluate no undefined division. -/
theorem division_exact (L : Layout) (backend : JitBackend)
    (other : StmtKind → List (Val HostPtr) → HostState → Option (List (Val HostPtr) × HostState))
    (s : HostState) {b : ExecIrBuilder} (hopen : IsOpen b) {l r : SSAValue} {width : IntWidth}
    (hl : b.ssaValues[l]? = some (.int width)) (hr : b.ssaValues[r]? = some (.int width))
    (x y : BitVec width.bits) :
    (Delivers L backend other (udiv l r) b [IsInt l width x, IsInt r width y] s
      fun halts F q c c' => c'.env q = Val.int width (udivMeaning x y) ∧ c'.world = s ∧
        DivisionsDefined halts F c c') ∧
    Delivers L backend other (sdiv l r) b [IsInt l width x, IsInt r width y] s
      fun halts F q c c' => c'.env q = Val.int width (sdivMeaning x y) ∧ c'.world = s ∧
        DivisionsDefined halts F c c' := by
  have hK : Typed (M := hostMachine L backend other) [IsInt l width x, IsInt r width y] b := by
    intro f hf
    rcases List.mem_pair.1 hf with rfl | rfl
    · exact hl
    · exact hr
  have hlK :
      IsInt l width x ∈ ([IsInt l width x, IsInt r width y] : List (HostFact L backend other)) :=
    List.mem_cons_self
  have hrK :
      IsInt r width y ∈ ([IsInt l width x, IsInt r width y] : List (HostFact L backend other)) :=
    List.mem_cons_of_mem _ (List.mem_singleton.2 rfl)
  constructor
  · refine ((computes_udiv hlK hrK).delivers hopen hK).mono fun halts F q c c' _ hend => ?_
    exact ⟨hend.1 _ (List.mem_singleton.2 rfl), hend.2, divisionsDefined halts F c c'⟩
  · refine ((computes_sdiv hlK hrK).delivers hopen hK).mono fun halts F q c c' _ hend => ?_
    exact ⟨hend.1 _ (List.mem_singleton.2 rfl), hend.2, divisionsDefined halts F c c'⟩

theorem division_exact_min_by_minus_one : ∃ b s,
    Delivers Layout.inOrder .gcc (fun _ _ _ => none) (sdiv 6 7) b
      [IsInt 6 .w8 0x80, IsInt 7 .w8 0xff] s
      fun _ _ q _ c' => c'.env q = Val.int .w8 0x80 :=
  ⟨twoConstants ⟨.w8, 0x80⟩ ⟨.w8, 0xff⟩, HostState.new ⟨0, Mmu.PageTable.new⟩,
    (division_exact Layout.inOrder .gcc (fun _ _ _ => none) _ (isOpen_twoConstants _ _) rfl rfl
      0x80 0xff).2.mono fun _ _ _ _ _ _ h => h.1⟩

end RapidArm.Jit
